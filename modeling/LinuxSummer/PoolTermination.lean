import Mathlib.Data.DFinsupp.WellFounded
import Mathlib.SetTheory.Ordinal.Rank
import LinuxSummer.PoolSafety

/-! `qsort_mt` returns: every step of a thread that does not wake up by itself brings it nearer to its
end. `qsort_mt` counts down its own loops; between its steps the parts of the array that can still be
handed out become fewer; between the hand-outs the threads get on in `qsort_algo`, and between the
calls there they get on in their loops. -/
namespace LinuxSummer.Pool
open Monitor Qsort
set_option linter.unusedSectionVars false

/-- The rest of a program after a call. -/
def Rest (t' t : SortProg Unit) : Prop := ∃ o k r, t = .op o k ∧ t' = k r

theorem rest_wf : WellFounded Rest := by
  refine ⟨fun t => ?_⟩
  induction t with
  | ret u =>
    refine ⟨_, ?_⟩
    rintro t' ⟨o, k, r, h, -⟩
    cases h
  | op o k ih =>
    refine ⟨_, ?_⟩
    rintro t' ⟨o', k', r, h, rfl⟩
    cases h
    exact ih r
  | stuck =>
    refine ⟨_, ?_⟩
    rintro t' ⟨o, k, r, h, -⟩
    cases h

instance : IsWellFounded (SortProg Unit) Rest := ⟨rest_wf⟩

/-- How far a program is from its end. -/
noncomputable def depth (t : SortProg Unit) : Ordinal.{0} := IsWellFounded.rank Rest t

theorem depth_rest (o : SortOp) (k : Answer o → SortProg Unit) (r : Answer o) :
    depth (k r) < depth (.op o k) := IsWellFounded.rank_lt_of_rel ⟨o, k, r, rfl, rfl⟩

/-! ### What is left to do -/

/-- The steps of `qsort_mt` still to be made, at most. `N` is the number of slots. -/
def MainLoc.rank (N : ℕ) (l : MainLoc) : ℕ :=
  match l.pc with
  | .start => 20 * N + 62
  | .initAl => 20 * N + 61
  | .calloc => 20 * N + 60
  | .slots => 10 * N + 40 + (10 * (N - l.islot) + 9)
  | .initMutex => 10 * N + 40 + (10 * (N - l.islot) + 8)
  | .initCond => 10 * N + 40 + (10 * (N - l.islot) + 7)
  | .setIdle => 10 * N + 40 + (10 * (N - l.islot) + 6)
  | .create => 10 * N + 40 + (10 * (N - l.islot) + 5)
  | .dropMutex => 10 * N + 30
  | .undoMutex => 10 * N + 30
  | .undoCond => 10 * N + 29
  | .common => 10 * N + 38
  | .hand .lock => 10 * N + 37
  | .hand .setA => 10 * N + 36
  | .hand .setN => 10 * N + 35
  | .hand .setSt => 10 * N + 34
  | .hand .count => 10 * N + 33
  | .hand .signal => 10 * N + 32
  | .hand .unlock => 10 * N + 31
  | .joins => 10 * (l.islot - l.i) + 8
  | .bail .lock => 10 * (l.islot - l.i) + 7
  | .bail .set => 10 * (l.islot - l.i) + 6
  | .bail .signal => 10 * (l.islot - l.i) + 5
  | .bail .unlock => 10 * (l.islot - l.i) + 4
  | .join => 10 * (l.islot - l.i) + 3
  | .destroyMutex => 10 * (l.islot - l.i) + 2
  | .destroyCond => 10 * (l.islot - l.i) + 1
  | .free => 5
  | .destroyAl => 4
  | .report => 3
  | .qsort => 2
  | .done => 0

/-- How many parts a part can still be cut into, at most. -/
def weight (st : ThreadState) (part : ℤ × ℤ) : ℕ :=
  if st = .work then (2 * (part.2 - part.1) - 1).toNat else 0

section Measure
variable {B : Type} (x : Args B) (d : Data B)

def handOuts : ℕ := ∑ i ∈ Finset.range x.maxthreads, weight (d.pool i).st (d.part i)

/-- What a thread has to do with its part. -/
def whole (part : ℤ × ℤ) : SortProg Unit :=
  qsortAlgo x.es x.forkelem ((part.2 - part.1).toNat + 1) (x.a + x.es * part.1) (part.2 - part.1)

/-- What the thread `i` has to do still in `qsort_algo`. -/
noncomputable def toSort (i : ℕ) : WorkerPc → Ordinal.{0}
  | .start | .wait _ | .check | .assert | .load =>
    if (d.pool i).st = .work then Order.succ (depth (whole x (d.part i))) else 0
  | .sort t => depth t
  | .alloc p _ a n k => depth (p.rest a n k)
  | _ => 0

/-- The steps of a thread up to its next call in `qsort_algo`, up to where it waits, or to its end. A
signal counts for more, since the thread that it wakes has to go back to its test. -/
@[simp] def distance (N : ℕ) : WorkerPc → ℕ
  | .start => 21
  | .wait .lock => 19
  | .wait .test => 18
  | .wait .cond => 17
  | .wait .unlock => 15
  | .check => 14
  | .assert => 13
  | .load => 12
  | .sort _ => 12 * N + 80
  | .alloc .loop j _ _ _ => 3 * (N - j) + 20
  | .alloc .test j _ _ _ => 3 * (N - j) + 19
  | .alloc .decr _ _ _ _ => 9
  | .alloc .lockSt _ _ _ _ => 8
  | .alloc .setWork _ _ _ _ => 7
  | .alloc .unlockAl _ _ _ _ => 12 * N + 110
  | .alloc .setA _ _ _ _ => 12 * N + 109
  | .alloc .setN _ _ _ _ => 12 * N + 108
  | .alloc .signal _ _ _ _ => 12 * N + 107
  | .alloc .unlockSt _ _ _ _ => 12 * N + 100
  | .alloc .fail _ _ _ _ => 12 * N + 100
  | .finish .setIdle => 12 * N + 73
  | .finish .count => 12 * N + 72
  | .finish .test => 12 * N + 71
  | .finish .unlock => 12 * N + 70
  | .last j => 12 * (N - j) + 40
  | .term .lock j => 12 * (N - j) + 39
  | .term .set j => 12 * (N - j) + 38
  | .term .signal j => 12 * (N - j) + 37
  | .term .unlock j => 12 * (N - j) + 30
  | .lastUnlock => 29
  | .leave => 10
  | .done => 0
  | .aborted => 0

end Measure

section Main
variable {B : Type} {x : Args B} {first : Option Resource} {l l' : MainLoc} {d d' : Data B} {b : Bool}

/-- Every step of `qsort_mt` brings it nearer to its end. -/
theorem MainLoc.rank_lt (hb : Bounds x first l) (he : Edge b (qsortMt x l) d d' (.main l')) :
    l'.rank x.maxthreads < l.rank x.maxthreads := by
  obtain ⟨pc, islot, i, bailout⟩ := l
  obtain ⟨hislot, hb⟩ := hb
  simp only at hislot hb
  cases pc with
  | hand p =>
    cases p with
    | lock | signal | unlock =>
      obtain rfl := Loc.main.inj he.2
      simp only [MainLoc.rank]
      omega
    | setA | setN | setSt | count =>
      obtain rfl := Loc.main.inj (edge_statement he).2
      simp only [MainLoc.rank]
      omega
  | bail p =>
    cases p with
    | lock | signal | unlock =>
      obtain rfl := Loc.main.inj he.2
      simp only [MainLoc.rank]
      omega
    | set =>
      obtain rfl := Loc.main.inj (edge_statement he).2
      simp only [MainLoc.rank]
      omega
  | initAl | calloc | initMutex | initCond | create =>
    cases b <;> cases he <;> simp only [MainLoc.rank] <;> omega
  | join =>
    simp only [qsortMt, Edge] at he
    split at he <;> cases he
    simp only [MainLoc.rank]
    omega
  | start | slots | report =>
    obtain rfl := Loc.main.inj (edge_statement he).2
    simp only
    split <;> simp only [MainLoc.rank] <;> omega
  | joins =>
    obtain rfl := Loc.main.inj (edge_statement he).2
    simp only
    split
    · split <;> simp only [MainLoc.rank] <;> omega
    · simp only [MainLoc.rank]
      omega
  | done => exact he.elim
  | dropMutex | setIdle | undoMutex | undoCond | common | destroyMutex | destroyCond | free
  | destroyAl | qsort =>
    obtain rfl := Loc.main.inj (edge_statement he).2
    simp only [MainLoc.rank]
    omega

end Main

section Worker
variable {B : Type} {x : Args B} {m₀ : ℤ → B} {l : MainLoc} {d d' : Data B} {w : ℕ → WorkerPc}
  {b : Bool} {i j : ℕ} {pc pc' : WorkerPc} {k : Loc}

/-- By how much a signal may set back the thread that it wakes. -/
@[simp] def extra : WorkerPc → ℕ
  | .alloc .signal _ _ _ _ | .term .signal _ => 4
  | _ => 0

/-- A step that changes neither the parts nor hands out work. -/
structure Fewer (d d' : Data B) : Prop where
  part : d'.part = d.part
  work : ∀ j, (d'.pool j).st = .work → (d.pool j).st = .work

theorem Fewer.of_pool (hpart : d'.part = d.part) (hpool : d'.pool = d.pool) : Fewer d d' :=
  ⟨hpart, fun j hj => by rwa [hpool] at hj⟩

theorem Fewer.setSt (st : ThreadState) (hst : st ≠ .work) : Fewer d (d.setSt j st) := by
  refine ⟨rfl, fun i hi => ?_⟩
  by_cases hij : i = j
  · subst hij
    rw [setSt_self] at hi
    exact absurd hi hst
  · rwa [setSt_of_ne st hij] at hi

/-- What a thread does but for the store of `ts_work` makes no new work. -/
theorem fewer_of_edge (he : Edge b (qsortThread x i pc) d d' k) :
    (∃ j a n r, pc = .alloc .setWork j a n r) ∨ Fewer d d' := by
  cases pc with
  | start =>
    simp only [qsortThread, Edge] at he
    split at he <;> cases he
    exact .inr (.of_pool rfl rfl)
  | wait p =>
    cases p with
    | test =>
      obtain ⟨rfl, -⟩ := edge_statement he
      exact .inr (.of_pool rfl rfl)
    | _ =>
      obtain ⟨rfl, -⟩ := he
      exact .inr (.of_pool rfl rfl)
  | check | assert | load | last | leave =>
    obtain ⟨rfl, -⟩ := edge_statement he
    exact .inr (.of_pool rfl rfl)
  | sort t =>
    rcases t with _ | ⟨o, r⟩ | _
    · obtain ⟨rfl, -⟩ := he
      exact .inr (.of_pool rfl rfl)
    · cases o with
      | allocate a n =>
        obtain ⟨rfl, -⟩ := he
        exact .inr (.of_pool rfl rfl)
      | _ =>
        obtain ⟨rfl, -⟩ := edge_statement he
        exact .inr (.of_pool rfl rfl)
    · cases he
  | alloc p j a n r =>
    cases p with
    | setWork => exact .inl ⟨j, a, n, r, rfl⟩
    | lockSt | unlockAl | signal | unlockSt | fail =>
      obtain ⟨rfl, -⟩ := he
      exact .inr (.of_pool rfl rfl)
    | loop | test | decr =>
      obtain ⟨rfl, -⟩ := edge_statement he
      exact .inr (.of_pool rfl rfl)
    | setA =>
      obtain ⟨rfl, -⟩ := edge_statement he
      exact .inr ⟨rfl, fun i hi => (setA_st j a i).symm.trans hi⟩
    | setN =>
      obtain ⟨rfl, -⟩ := edge_statement he
      exact .inr ⟨rfl, fun i hi => (setN_st j n i).symm.trans hi⟩
  | finish p =>
    cases p with
    | setIdle =>
      obtain ⟨rfl, -⟩ := edge_statement he
      exact .inr (.setSt .idle (by simp))
    | unlock =>
      obtain ⟨rfl, -⟩ := he
      exact .inr (.of_pool rfl rfl)
    | _ =>
      obtain ⟨rfl, -⟩ := edge_statement he
      exact .inr (.of_pool rfl rfl)
  | term p j =>
    cases p with
    | set =>
      obtain ⟨rfl, -⟩ := edge_statement he
      exact .inr (.setSt .term (by simp))
    | _ =>
      obtain ⟨rfl, -⟩ := he
      exact .inr (.of_pool rfl rfl)
  | lastUnlock =>
    obtain ⟨rfl, -⟩ := he
    exact .inr (.of_pool rfl rfl)
  | done | aborted => exact he.elim

theorem weight_le {st st' : ThreadState} (part : ℤ × ℤ) (h : st' = .work → st = .work) :
    weight st' part ≤ weight st part := by
  unfold weight
  by_cases hst : st' = .work
  · rw [if_pos hst, if_pos (h hst)]
  · rw [if_neg hst]
    exact Nat.zero_le _

theorem Fewer.handOuts_le (h : Fewer d d') : handOuts x d' ≤ handOuts x d := by
  refine Finset.sum_le_sum fun i _ => ?_
  rw [h.part]
  exact weight_le _ (h.work i)

theorem Fewer.toSort_le (h : Fewer d d') (i : ℕ) (pc : WorkerPc) :
    toSort x d' i pc ≤ toSort x d i pc := by
  have waiting : (if (d'.pool i).st = .work then Order.succ (depth (whole x (d'.part i))) else 0) ≤
      if (d.pool i).st = .work then Order.succ (depth (whole x (d.part i))) else 0 := by
    rw [h.part]
    by_cases hst : (d'.pool i).st = .work
    · rw [if_pos hst, if_pos (h.work i hst)]
    · rw [if_neg hst]
      exact zero_le
  cases pc with
  | start | wait | check | assert | load => exact waiting
  | sort | alloc | finish | last | term | lastUnlock | leave | done | aborted => exact le_refl _

/-- The thread `i` gets on in `qsort_algo`, or on its way to its next call there. -/
def Nearer (x : Args B) (d : Data B) (i : ℕ) (pc pc' : WorkerPc) : Prop :=
  toSort x d i pc' < toSort x d i pc ∨ toSort x d i pc' ≤ toSort x d i pc ∧
    distance x.maxthreads pc' + extra pc < distance x.maxthreads pc

theorem wait_nearer {p : WaitPc} (hp : p ≠ .cond)
    (he : Edge b (waitForWork i p) d d' (.worker pc')) : Nearer x d i (.wait p) pc' := by
  cases p with
  | lock | unlock =>
    obtain rfl := Loc.worker.inj he.2
    exact .inr ⟨le_refl _, by simp⟩
  | test =>
    obtain rfl := Loc.worker.inj (edge_statement he).2
    split
    · exact .inr ⟨le_refl _, by simp⟩
    · exact .inr ⟨le_refl _, by simp⟩
  | cond => exact absurd rfl hp

/-- A thread begins with as much as it was given. -/
theorem Open.load_nearer (h : Open x m₀ d w) (hpc : w i = .load)
    (he : Edge b (qsortThread x i .load) d d' (.worker pc')) : Nearer x d i .load pc' := by
  obtain ⟨hwork, ha, hn⟩ := h.task_at hpc
  obtain rfl := Loc.worker.inj (edge_statement he).2
  refine .inl ?_
  simp only [toSort, hwork, if_true, ha, hn]
  exact Order.lt_succ _

theorem sort_nearer {t : SortProg Unit} (he : Edge b (sortStep x t) d d' (.worker pc')) :
    Nearer x d i (.sort t) pc' := by
  rcases t with _ | ⟨o, r⟩ | _
  · obtain rfl := Loc.worker.inj he.2
    exact .inr ⟨zero_le, by simp⟩
  · cases o with
    | allocate a n =>
      obtain rfl := Loc.worker.inj he.2
      refine .inr ⟨le_refl _, ?_⟩
      simp only [distance, extra]
      omega
    | _ =>
      obtain rfl := Loc.worker.inj (edge_statement he).2
      exact .inl (depth_rest _ r _)
  · cases he

/-- A thread in `allocate_thread` comes to the end of the pool, to an idle thread, or back to its own
part of the array. -/
theorem Open.alloc_nearer {p : AllocPc} {a n : ℤ} {r : Bool → SortProg Unit} (h : Open x m₀ d w)
    (hpc : w i = .alloc p j a n r) (hp : p ≠ .setWork)
    (he : Edge b (allocate x i j a n r p) d d' (.worker pc')) :
    Nearer x d i (.alloc p j a n r) pc' := by
  obtain ⟨-, -, hj, -⟩ := h.task_at hpc
  cases p with
  | loop =>
    obtain rfl := Loc.worker.inj (edge_statement he).2
    split
    · refine .inr ⟨le_refl _, ?_⟩
      simp only [distance, extra]
      omega
    · exact .inl (depth_rest (.allocate a n) r false)
  | test =>
    have hj : j < x.maxthreads := hj
    obtain rfl := Loc.worker.inj (edge_statement he).2
    split
    · refine .inr ⟨le_refl _, ?_⟩
      simp only [distance, extra]
      omega
    · refine .inr ⟨le_refl _, ?_⟩
      simp only [distance, extra]
      omega
  | setWork => exact absurd rfl hp
  | decr | setA | setN =>
    obtain rfl := Loc.worker.inj (edge_statement he).2
    exact .inr ⟨le_refl _, by simp⟩
  | lockSt | unlockAl | signal | unlockSt | fail =>
    obtain rfl := Loc.worker.inj he.2
    exact .inr ⟨le_refl _, by simp⟩

theorem Open.finish_nearer {p : FinishPc} (h : Open x m₀ d w) (hpc : w i = .finish p)
    (he : Edge b (finish i p) d d' (.worker pc')) : Nearer x d i (.finish p) pc' := by
  have htask := h.task_at hpc
  cases p with
  | setIdle | count =>
    obtain rfl := Loc.worker.inj (edge_statement he).2
    exact .inr ⟨le_refl _, by simp⟩
  | test =>
    obtain rfl := Loc.worker.inj (edge_statement he).2
    split
    · refine .inr ⟨le_refl _, ?_⟩
      simp only [distance, extra]
      omega
    · exact .inr ⟨le_refl _, by simp⟩
  | unlock =>
    obtain rfl := Loc.worker.inj he.2
    have hidle : (d.pool i).st = .idle := htask
    refine .inr ⟨?_, ?_⟩
    · simp [toSort, hidle]
    · simp only [distance, extra]
      omega

/-- The last thread comes to the end of the pool. -/
theorem Ending.nearer {last : Option ℕ} (h : Ending x d w last) (hpc : w i = pc)
    (hlast : (∃ j, pc = .last j) ∨ ∃ p j, pc = .term p j)
    (he : Edge b (qsortThread x i pc) d d' (.worker pc')) : Nearer x d i pc pc' := by
  have htask : Closing x d last i pc := hpc ▸ h.task i
  rcases hlast with ⟨j, rfl⟩ | ⟨p, j, rfl⟩
  · obtain rfl := Loc.worker.inj (edge_statement he).2
    have hN := h.nthreads (by simp [htask.1])
    rw [hN]
    split
    · split
      · refine .inr ⟨le_refl _, ?_⟩
        simp only [distance, extra]
        omega
      · exact .inr ⟨le_refl _, by simp⟩
    · refine .inr ⟨le_refl _, ?_⟩
      simp only [distance, extra]
      omega
  · obtain ⟨-, -, -, -, hj, -⟩ := htask
    cases p with
    | set =>
      obtain rfl := Loc.worker.inj (edge_statement he).2
      exact .inr ⟨le_refl _, by simp⟩
    | lock | signal =>
      obtain rfl := Loc.worker.inj he.2
      exact .inr ⟨le_refl _, by simp⟩
    | unlock =>
      obtain rfl := Loc.worker.inj he.2
      refine .inr ⟨le_refl _, ?_⟩
      simp only [distance, extra]
      omega

theorem Stage.closing (h : Stage x m₀ d l w)
    (hlast : (∃ j, w i = .last j) ∨ ∃ p j, w i = .term p j) : ∃ last, Ending x d w last := by
  have not_waiting (hall : ∀ i, Waiting (w i)) : False := by
    have hi := hall i
    rcases hlast with ⟨j, hpc⟩ | ⟨p, j, hpc⟩
    · rw [hpc] at hi
      exact hi
    · rw [hpc] at hi
      exact hi
  rcases h.phase with ⟨hall, -⟩ | hh | ho | ⟨last, he, -⟩
  · exact (not_waiting hall).elim
  · exact (not_waiting hh.waiting).elim
  · have htask := ho.task i
    rcases hlast with ⟨j, hpc⟩ | ⟨p, j, hpc⟩
    · rw [hpc] at htask
      exact htask.elim
    · rw [hpc] at htask
      exact htask.elim
  · exact ⟨last, he⟩

/-- Every step of a thread but for the hand-out of work and the wait brings it nearer to its end. -/
theorem Stage.nearer (h : Stage x m₀ d l w) (hset : ∀ j a n r, w i ≠ .alloc .setWork j a n r)
    (hcond : w i ≠ .wait .cond) (he : Edge b (qsortThread x i (w i)) d d' (.worker pc')) :
    Nearer x d i (w i) pc' := by
  cases hpc : w i with
  | start =>
    rw [hpc] at he
    simp only [qsortThread, Edge] at he
    split at he <;> cases he
    exact .inr ⟨le_refl _, by simp⟩
  | wait p =>
    rw [hpc] at he hcond
    exact wait_nearer (fun hp => hcond (by rw [hp])) he
  | check =>
    rw [hpc] at he
    obtain rfl := Loc.worker.inj (edge_statement he).2
    split
    · exact .inr ⟨zero_le, by simp⟩
    · exact .inr ⟨le_refl _, by simp⟩
  | assert =>
    rw [hpc] at he
    obtain rfl := Loc.worker.inj (edge_statement he).2
    split
    · exact .inr ⟨le_refl _, by simp⟩
    · exact .inr ⟨zero_le, by simp⟩
  | load =>
    rw [hpc] at he
    exact (h.open_of_working (by rw [hpc]; trivial)).load_nearer hpc he
  | sort t =>
    rw [hpc] at he
    exact sort_nearer he
  | alloc p j a n r =>
    rw [hpc] at he hset
    refine (h.open_of_working (by rw [hpc]; trivial)).alloc_nearer hpc (fun hp => ?_) he
    exact hset j a n r (by rw [hp])
  | finish p =>
    rw [hpc] at he
    exact (h.open_of_working (by rw [hpc]; trivial)).finish_nearer hpc he
  | last j =>
    rw [hpc] at he
    obtain ⟨last, hend⟩ := h.closing (.inl ⟨j, hpc⟩)
    exact hend.nearer hpc (.inl ⟨j, rfl⟩) he
  | term p j =>
    rw [hpc] at he
    obtain ⟨last, hend⟩ := h.closing (.inr ⟨p, j, hpc⟩)
    exact hend.nearer hpc (.inr ⟨p, j, rfl⟩) he
  | lastUnlock =>
    rw [hpc] at he
    obtain rfl := Loc.worker.inj he.2
    exact .inr ⟨le_refl _, by simp⟩
  | leave =>
    rw [hpc] at he
    obtain rfl := Loc.worker.inj (edge_statement he).2
    exact .inr ⟨le_refl _, by simp⟩
  | done | aborted =>
    rw [hpc] at he
    exact he.elim

/-- A sum falls when one term loses more than another one gains. -/
theorem sum_lt_of_moved {f f' : ℕ → ℕ} {N v e : ℕ} (hi : i < N) (hlt : f' i + e < f i)
    (hother : ∀ k, k ≠ i → f' k ≤ f k + if k = v then e else 0) :
    ∑ k ∈ Finset.range N, f' k < ∑ k ∈ Finset.range N, f k := by
  have hmem : i ∈ Finset.range N := Finset.mem_range.mpr hi
  have hgain : ∑ k ∈ (Finset.range N).erase i, (if k = v then e else 0) ≤ e := by
    rw [Finset.sum_ite_eq']
    split <;> omega
  have hrest : ∑ k ∈ (Finset.range N).erase i, f' k ≤ ∑ k ∈ (Finset.range N).erase i, f k + e := by
    calc ∑ k ∈ (Finset.range N).erase i, f' k
        ≤ ∑ k ∈ (Finset.range N).erase i, (f k + if k = v then e else 0) :=
          Finset.sum_le_sum fun k hk => hother k (Finset.ne_of_mem_erase hk)
      _ ≤ _ := by
        rw [Finset.sum_add_distrib]
        omega
  rw [← Finset.add_sum_erase _ f hmem, ← Finset.add_sum_erase _ f' hmem]
  omega

/-- A hand-out cuts a part into two that weigh less. -/
theorem Open.handOuts_lt (hx : x.Valid) (h : Open x m₀ d w) {a n : ℤ} {r : Bool → SortProg Unit}
    (hpc : w i = .alloc .setWork j a n r) :
    handOuts x ((d.setSt j .work).handOver x i j a n) < handOuts x d := by
  obtain ⟨hwork, hsorts, hjN, hfound⟩ := h.task_at hpc
  have hidle : (d.pool j).st = .idle := hfound
  have hji : j ≠ i := by
    rintro rfl
    rw [hwork] at hidle
    cases hidle
  obtain ⟨lo, rfl, hn, hlo, hhi, -⟩ := hsorts.allocate
  obtain ⟨hparti, hpartj, hpart⟩ := handOver_part (d.setSt j .work) hx.es_pos hji lo n
  set d' := (d.setSt j .work).handOver x i j (x.a + x.es * lo) n
  have hpool (l : ℕ) (hl : l ≠ j) : d'.pool l = d.pool l := setSt_of_ne _ hl
  have hworkj : (d'.pool j).st = .work := congrArg Slot.st (setSt_self _)
  have hi : weight (d.pool i).st (d.part i) = (2 * ((d.part i).2 - (d.part i).1) - 1).toNat := by
    rw [weight, if_pos hwork]
  have hi' : weight (d'.pool i).st (d'.part i) = (2 * ((d.part i).2 - (lo + n)) - 1).toNat := by
    rw [weight, hpool i hji.symm, if_pos hwork, hparti]
    rfl
  have hj' : weight (d'.pool j).st (d'.part j) = (2 * n - 1).toNat := by
    rw [weight, if_pos hworkj, hpartj, add_sub_cancel_left]
  refine sum_lt_of_moved (v := j) (e := (2 * n - 1).toNat) (h.inside i hwork) ?_ fun k hk => ?_
  · rw [hi, hi']
    omega
  · by_cases hkj : k = j
    · subst hkj
      rw [if_pos rfl, hj']
      omega
    · rw [hpool k hkj, hpart k hk hkj]
      exact Nat.le_add_right _ _

end Worker

/-! ### States -/

section States
variable {B : Type} {x : Args B} {m₀ : ℤ → B} {first : Option Resource} {l : MainLoc} {d : Data B}
  {w : ℕ → WorkerPc} {b : Bool} {i j : ℕ} {pc : WorkerPc} {a : Act Thread} {s s' : State B}
  {m : Mutex} {k : Loc}

def mainAt (s : State B) : MainLoc :=
  match Program.locs s .main with
  | .main l => l
  | .worker _ => ⟨.done, 0, 0, false⟩

def workerAt (s : State B) (i : ℕ) : WorkerPc :=
  match Program.locs s (.worker i) with
  | .worker pc => pc
  | .main _ => .done

theorem mainAt_eq (h : Program.locs s = places l w) : mainAt s = l := by
  rw [mainAt, h]
  rfl

theorem workerAt_eq (h : Program.locs s = places l w) : workerAt s = w := by
  funext i
  rw [workerAt, h]
  rfl

/-- The steps of a thread up to its next call in `qsort_algo`, also while it waits. -/
def far (N : ℕ) (s : State B) (i : ℕ) : ℕ :=
  match s.thread (.worker i) with
  | .run _ => distance N (workerAt s i)
  | .asleep m _ => if .worker i ∈ s.shared.waiters m then 16 else 20
  | .woken _ _ => 19

/-- What is left to do, the most important first. -/
noncomputable def toDo (x : Args B) (s : State B) :
    ℕ ×ₗ ℕ ×ₗ (Fin x.maxthreads → Ordinal.{0}) ×ₗ ℕ :=
  toLex ((mainAt s).rank x.maxthreads, toLex (handOuts x s.shared.data,
    toLex (fun i => toSort x s.shared.data i (workerAt s i),
      ∑ i ∈ Finset.range x.maxthreads, far x.maxthreads s i)))

/-- When `qsort_mt` does not move. -/
theorem toDo_lt_of (hmain : mainAt s' = mainAt s)
    (hhand : handOuts x s'.shared.data ≤ handOuts x s.shared.data)
    (hother : ∀ j, j ≠ i → toSort x s'.shared.data j (workerAt s' j) ≤
      toSort x s.shared.data j (workerAt s j)) (hi : i < x.maxthreads)
    (h : toSort x s'.shared.data i (workerAt s' i) < toSort x s.shared.data i (workerAt s i) ∨
      toSort x s'.shared.data i (workerAt s' i) ≤ toSort x s.shared.data i (workerAt s i) ∧
        ∑ j ∈ Finset.range x.maxthreads, far x.maxthreads s' j <
          ∑ j ∈ Finset.range x.maxthreads, far x.maxthreads s j) : toDo x s' < toDo x s := by
  have hle : toSort x s'.shared.data i (workerAt s' i) ≤ toSort x s.shared.data i (workerAt s i) :=
    h.elim le_of_lt And.left
  refine Prod.Lex.toLex_lt_toLex'.mpr ⟨(congrArg (MainLoc.rank _) hmain).le, fun _ => ?_⟩
  refine Prod.Lex.toLex_lt_toLex'.mpr ⟨hhand, fun _ => ?_⟩
  refine Prod.Lex.toLex_lt_toLex'.mpr ⟨fun j => ?_, fun heq => ?_⟩
  · by_cases hj : (j : ℕ) = i
    · rw [← hj] at hle
      exact hle
    · exact hother j hj
  · rcases h with hlt | ⟨-, hlt⟩
    · exact absurd (congrFun heq ⟨i, hi⟩) hlt.ne
    · exact hlt

/-! ### Steps -/

theorem extra_of_signal (h : qsortThread x i pc = .signal m k) : extra pc = 4 := by
  cases pc with
  | wait p => cases p <;> cases h
  | sort t =>
    rcases t with _ | ⟨o, r⟩ | _
    · cases h
    · cases o <;> cases h
    · cases h
  | alloc p j a n r => cases p <;> first | rfl | cases h
  | finish p => cases p <;> cases h
  | term p j => cases p <;> first | rfl | cases h
  | _ => cases h

theorem not_broadcast : qsortThread x i pc ≠ .broadcast m k := by
  intro h
  cases pc with
  | wait p => cases p <;> cases h
  | sort t =>
    rcases t with _ | ⟨o, r⟩ | _
    · cases h
    · cases o <;> cases h
    · cases h
  | alloc p j a n r => cases p <;> cases h
  | finish p => cases p <;> cases h
  | term p j => cases p <;> cases h
  | _ => cases h

theorem workerAt_of_thread (h : s'.thread (.worker j) = s.thread (.worker j)) :
    workerAt s' j = workerAt s j := by
  rw [workerAt, workerAt, Program.locs, Program.locs, h]

/-- The slot of a thread. -/
def Thread.slot : Thread → ℕ
  | .main => 0
  | .worker i => i

/-- A step of a thread sets back the one that it wakes, and no other. -/
theorem far_others (N : ℕ) {g : Shared Thread Mutex (Data B)} {st : Status Mutex Loc}
    (h : Stepped (pool x) (.worker i) s.shared a (.run (.worker pc)) g st) : ∃ v, ∀ j, j ≠ i →
      far N ⟨g, Function.update s.thread (.worker i) st⟩ j ≤
        far N s j + if j = v then extra pc else 0 := by
  obtain ⟨u, hu⟩ := h.leaves
  refine ⟨u.slot, fun j hj => ?_⟩
  have hthread : (⟨g, Function.update s.thread (.worker i) st⟩ : State B).thread (.worker j) =
      s.thread (.worker j) := Function.update_of_ne (fun he => hj (Thread.worker.inj he)) _ _
  have hat := workerAt_of_thread hthread
  unfold far
  rw [hthread, hat]
  cases hst : s.thread (.worker j) with
  | run k => exact Nat.le_add_right _ _
  | woken m k => exact Nat.le_add_right _ _
  | asleep m k =>
    by_cases hmem : Thread.worker j ∈ s.shared.waiters m
    · simp only [if_pos hmem]
      rcases hu _ m hmem with hstay | ⟨rfl, m', k', hsignal⟩ | ⟨m', k', hall⟩
      · rw [if_pos hstay]
        exact Nat.le_add_right _ _
      · rw [extra_of_signal hsignal, if_pos (show j = Thread.slot (.worker j) from rfl)]
        split <;> omega
      · exact absurd hall not_broadcast
    · simp only [if_neg hmem]
      split <;> omega

/-- A step of a thread within its wait. -/
theorem toDo_lt_waiting (hlocs : Program.locs s' = Program.locs s)
    (hdata : s'.shared.data = s.shared.data) (hi : i < x.maxthreads)
    (hself : far x.maxthreads s' i < far x.maxthreads s i)
    (hother : ∀ j, j ≠ i → far x.maxthreads s' j ≤ far x.maxthreads s j) : toDo x s' < toDo x s := by
  have hworker : workerAt s' = workerAt s := by
    funext j
    rw [workerAt, workerAt, hlocs]
  refine toDo_lt_of (i := i) (by rw [mainAt, mainAt, hlocs]) (by rw [hdata]) (fun j _ => ?_) hi
    (.inr ⟨?_, ?_⟩)
  · rw [hdata, hworker]
  · rw [hdata, hworker]
  · refine sum_lt_of_moved (v := i) (e := 0) hi hself fun j hj => ?_
    exact (hother j hj).trans (Nat.le_add_right _ _)

/-- A step of a running thread leaves the others where they are. -/
theorem workerAt_update (hlocs : Program.locs s = places l w) (g : Shared Thread Mutex (Data B))
    (st : Status Mutex Loc) (hj : j ≠ i) :
    workerAt ⟨g, Function.update s.thread (.worker i) st⟩ j = w j := by
  rw [workerAt_of_thread (s := s), workerAt_eq hlocs]
  exact Function.update_of_ne (fun he => hj (Thread.worker.inj he)) _ _

theorem workerAt_self (s : State B) (g : Shared Thread Mutex (Data B)) {st : Status Mutex Loc}
    (hst : st.loc = .worker pc) :
    workerAt ⟨g, Function.update s.thread (.worker i) st⟩ i = pc := by
  simp only [workerAt, Program.locs, Function.update_self, hst]

theorem mainAt_update (s : State B) (g : Shared Thread Mutex (Data B)) (st : Status Mutex Loc) :
    mainAt ⟨g, Function.update s.thread (.worker i) st⟩ = mainAt s := by
  simp [mainAt, Program.locs]

/-- A thread begins to wait. -/
theorem toDo_lt_cond (hlocs : Program.locs s = places l w) (hi : i < x.maxthreads)
    {g : Shared Thread Mutex (Data B)} {st : Status Mutex Loc}
    (hrun : s.thread (.worker i) = .run (.worker (w i))) (hcond : w i = .wait .cond)
    (h : Stepped (pool x) (.worker i) s.shared a (.run (.worker (w i))) g st) :
    toDo x (⟨g, Function.update s.thread (.worker i) st⟩ : State B) < toDo x s := by
  obtain ⟨v, hfar⟩ := far_others x.maxthreads h
  have hw := workerAt_eq hlocs
  have hbefore : far x.maxthreads s i = 17 := by
    simp [far, hrun, hw, hcond]
  rw [hcond] at h hfar
  cases h with
  | wait instr =>
    cases instr
    refine toDo_lt_of (i := i) (mainAt_update ..) (le_refl _) (fun j hj => ?_) hi (.inr ⟨?_, ?_⟩)
    · rw [workerAt_update hlocs _ _ hj, hw]
      exact le_refl _
    · have hloc : (Status.asleep (.st i) (.worker (.wait .test)) : Status Mutex Loc).loc =
          .worker (.wait .test) := rfl
      rw [workerAt_self s _ hloc, hw, hcond]
      exact le_refl _
    · refine sum_lt_of_moved hi ?_ hfar
      rw [hbefore]
      simp [far, Shared.enter, Shared.release]
  | lock instr | unlock instr | quiet instr | signal instr | broadcast instr | access instr
  | attempt instr => cases instr

/-- A step of a running thread. -/
theorem toDo_lt_running (hx : x.Valid) (hlocs : Program.locs s = places l w)
    (hstage : Stage x m₀ s.shared.data l w) (hi : i < x.maxthreads)
    {g : Shared Thread Mutex (Data B)} {st : Status Mutex Loc}
    (hrun : s.thread (.worker i) = .run (.worker (w i))) (hcond : w i ≠ .wait .cond)
    (h : Stepped (pool x) (.worker i) s.shared a (.run (.worker (w i))) g st) :
    toDo x (⟨g, Function.update s.thread (.worker i) st⟩ : State B) < toDo x s := by
  obtain ⟨v, hfar⟩ := far_others x.maxthreads h
  have hw := workerAt_eq hlocs
  have hgoes (m : Mutex) (k : Loc) : (pool x).instr (.worker i) (.worker (w i)) ≠ .wait m k := by
    intro hwait
    have hinstr : instr x (.worker i) (.worker (w i)) = .wait m k := hwait
    obtain ⟨u, -, hpc, -⟩ := wait_instr hinstr
    exact hcond (Loc.worker.inj hpc)
  obtain ⟨b, hst, he⟩ := h.goes hgoes
  obtain ⟨pc', hpc'⟩ := qsortThread_edge he
  rw [hpc'] at he
  have hnext := workerAt_self (i := i) s g hpc'
  by_cases hset : ∃ j a n r, w i = .alloc .setWork j a n r
  · obtain ⟨j, c, n, r, hpc⟩ := hset
    have hopen := hstage.open_of_working (i := i) (by rw [hpc]; trivial)
    have hlt := hopen.handOuts_lt hx hpc
    rw [hpc] at he
    have hdata : g.data = (s.shared.data.setSt j .work).handOver x i j c n := (edge_statement he).1
    rw [← hdata] at hlt
    have hmain := congrArg (MainLoc.rank x.maxthreads) (mainAt_update (i := i) s g st)
    refine Prod.Lex.toLex_lt_toLex'.mpr ⟨hmain.le, fun _ => ?_⟩
    exact Prod.Lex.toLex_lt_toLex'.mpr ⟨hlt.le, fun heq => absurd heq hlt.ne⟩
  · have hfewer := (fewer_of_edge he).resolve_left hset
    refine toDo_lt_of (i := i) (mainAt_update ..) hfewer.handOuts_le (fun j hj => ?_) hi ?_
    · rw [workerAt_update hlocs _ _ hj, hw]
      exact hfewer.toSort_le j _
    have hnear := hstage.nearer (fun j c n r hpc => hset ⟨j, c, n, r, hpc⟩) hcond he
    rw [hnext, hw]
    refine hnear.imp (hfewer.toSort_le i _).trans_lt fun ⟨hle, hlt⟩ =>
      ⟨(hfewer.toSort_le i _).trans hle, sum_lt_of_moved hi ?_ hfar⟩
    have hbefore : far x.maxthreads s i = distance x.maxthreads (w i) := by
      rw [far, hrun, hw]
    have hafter : far x.maxthreads ⟨g, Function.update s.thread (.worker i) st⟩ i =
        distance x.maxthreads pc' := by
      rw [← hnext, hst]
      simp [far]
    rw [hbefore, hafter]
    exact hlt

/-- A step that is not a spurious wake-up. -/
def Onward (x : Args B) (m₀ : ℤ → B) (first : Option Resource) (s s' : State B) : Prop :=
  ∃ a, failsAt first s a ∧ a.2 ≠ .spurious ∧ (system x m₀).next s a = some s'

/-- A thread that makes a step was created. -/
theorem acquired_of_step (h : (system x m₀).Reachable (failsAt first) s)
    (hlocs : Program.locs s = places l w) (hlife : Lifecycle s.shared.data w)
    (hn : (system x m₀).next s (.worker i, a) = some s') :
    s.shared.data.acquired (.thread i) ≠ 0 := by
  obtain ⟨g, st, hstep, -⟩ := step_cases hn
  have hloc : (s.thread (.worker i)).loc = .worker (w i) := congrFun hlocs (.worker i)
  rcases hstep.edge with ⟨-, -, m, k, hst⟩ | ⟨k, b, hst, -, -, he⟩
  · obtain ⟨u, -, -, rfl⟩ := resumes_reachable h _ _ _ hst
    have hpc : w i = .wait .test := by
      rcases hst with hst | hst
      · rw [hst] at hloc
        exact (Loc.worker.inj hloc).symm
      · rw [hst] at hloc
        exact (Loc.worker.inj hloc).symm
    intro hzero
    rw [hlife.created i hzero] at hpc
    cases hpc
  · rw [hst] at hloc
    obtain rfl : k = .worker (w i) := hloc
    obtain ⟨pc', hpc'⟩ := qsortThread_edge he
    rw [hpc'] at he
    exact hlife.acquired he

/-- A step of a thread. -/
theorem toDo_lt_worker (hx : x.Valid) (h : (system x m₀).Reachable (failsAt first) s)
    (hlocs : Program.locs s = places l w) (hstage : Stage x m₀ s.shared.data l w)
    (hi : i < x.maxthreads) (ha : a ≠ .spurious)
    (hn : (system x m₀).next s (.worker i, a) = some s') : toDo x s' < toDo x s := by
  obtain ⟨g, st, hmove, rfl⟩ := Threads.step_cases hn
  have hnext : (pool x).next (.worker i) s.shared (s.thread (.worker i)) a = some (g, st) := hmove
  have hloc : (s.thread (.worker i)).loc = .worker (w i) := congrFun hlocs (.worker i)
  have hsame (hst : st.loc = (s.thread (.worker i)).loc) :
      Program.locs (⟨g, Function.update s.thread (.worker i) st⟩ : State B) = Program.locs s := by
    rw [locs_update, hst]
    exact Function.update_eq_self _ _
  have hother (hg : g.waiters = s.shared.waiters) (j : ℕ) (hj : j ≠ i) : far x.maxthreads
      ⟨g, Function.update s.thread (.worker i) st⟩ j ≤ far x.maxthreads s j := by
    have hthread : (⟨g, Function.update s.thread (.worker i) st⟩ : State B).thread (.worker j) =
        s.thread (.worker j) := Function.update_of_ne (fun he => hj (Thread.worker.inj he)) _ _
    unfold far
    rw [hthread, workerAt_of_thread hthread]
    simp only [hg]
    exact le_refl _
  cases hst : s.thread (.worker i) with
  | asleep m k =>
    rw [hst] at hnext
    obtain ⟨rfl, rfl, hoff⟩ := next_asleep hnext ha
    refine toDo_lt_waiting (hsame (by rw [hst]; rfl)) rfl hi ?_ (hother rfl)
    simp [far, hst, hoff]
  | woken m k =>
    obtain ⟨u, -, -, rfl⟩ := resumes_reachable h _ _ _ (.inr hst)
    rw [hst] at hnext
    obtain ⟨rfl, rfl⟩ := next_woken hnext
    refine toDo_lt_waiting (hsame (by rw [hst]; rfl)) rfl hi ?_ (hother rfl)
    simp [far, hst, workerAt, Program.locs, Status.loc]
  | run k =>
    rw [hst] at hnext hloc
    obtain rfl : k = .worker (w i) := hloc
    have hstep := next_stepped hnext
    by_cases hcond : w i = .wait .cond
    · exact toDo_lt_cond hlocs hi hst hcond hstep
    · exact toDo_lt_running hx hlocs hstage hi hst hcond hstep

/-- Every step but for spurious wake-ups leaves less to do. -/
theorem toDo_lt (hx : x.Valid)
    (hsize : x.maxthreads = 0 → first = some .mtxAl ∨ first = some .pool)
    (hq : first ≠ none ∨ x.n < x.forkelem → ∀ m, Result x m (x.qsort m))
    (h : (system x m₀).Reachable (failsAt first) s) (hstep : Onward x m₀ first s s') :
    toDo x s' < toDo x s := by
  obtain ⟨⟨t, a⟩, hok, ha, hn⟩ := hstep
  obtain ⟨l, w, hlocs, haccount, hbounds, hlife, hstage⟩ := stage_reachable hx hsize hq h
  cases t with
  | worker i =>
    have hi := slot_lt haccount hbounds (acquired_of_step h hlocs hlife hn)
    exact toDo_lt_worker hx h hlocs hstage hi ha hn
  | main =>
    have hrun := main_running h hlocs
    obtain ⟨g, st, hmove, rfl⟩ := step_cases hn
    rw [hrun] at hmove
    rcases hmove.edge with ⟨-, -, m, k, hwait | hwait⟩ | ⟨k, b, hk, -, -, he⟩
    · cases hwait
    · cases hwait
    cases hk
    obtain ⟨l', hl'⟩ := qsortMt_edge he
    rw [hl'] at he
    have hnext : mainAt (⟨g, Function.update s.thread .main st⟩ : State B) = l' := by
      simp [mainAt, Program.locs, hl']
    refine Prod.Lex.toLex_lt_toLex.mpr (.inl ?_)
    rw [hnext, mainAt_eq hlocs]
    exact MainLoc.rank_lt hbounds he

end States

end LinuxSummer.Pool
