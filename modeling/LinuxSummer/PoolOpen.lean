import Mathlib.Algebra.BigOperators.Group.Finset.Piecewise
import LinuxSummer.PoolTask

/-! The pool while there is work to do: what each thread is busy with, the count of idle threads and
the parts of the array. -/
namespace LinuxSummer.Pool
open Monitor Qsort
set_option linter.unusedSectionVars false

/-- Waits for work, or is about to. -/
def Waiting : WorkerPc → Prop
  | .start | .wait .lock | .wait .test | .wait .cond => True
  | _ => False

/-- The thread is taken and does not yet know what to sort. -/
def AllocPc.Fills : AllocPc → Prop
  | .unlockAl | .setA | .setN => True
  | _ => False

/-- Has taken the thread `j` and not yet told it what to sort. -/
def HandsOver (j : ℕ) : WorkerPc → Prop
  | .alloc p i _ _ _ => p.Fills ∧ i = j
  | _ => False

/-- By how much `idlethreads` is less than the number of threads that do not work. -/
def pending : WorkerPc → ℤ
  | .alloc .lockSt _ _ _ _ | .alloc .setWork _ _ _ _ | .finish .count => 1
  | _ => 0

/-- What a thread adds to `idlethreads`. -/
def share (st : ThreadState) (pc : WorkerPc) : ℤ := (if st = .work then 0 else 1) - pending pc

/-- What `allocate_thread` has to do still. -/
def AllocPc.rest (a n : ℤ) (k : Bool → SortProg Unit) : AllocPc → SortProg Unit
  | .loop | .test | .decr | .lockSt | .setWork => .op (.allocate a n) k
  | .unlockAl | .setA | .setN | .signal | .unlockSt => k true
  | .fail => k false

/-- The thread `j` is one of the pool. -/
def AllocPc.Below (N j : ℕ) : AllocPc → Prop
  | .loop | .fail => True
  | _ => j < N

section Tasks
variable {B : Type} (x : Args B) (d : Data B) (w : ℕ → WorkerPc)

/-- The pool entry says which elements to sort. -/
def Given (i : ℕ) : Prop :=
  (d.pool i).a = x.a + x.es * (d.part i).1 ∧ (d.pool i).n = (d.part i).2 - (d.part i).1

/-- The thread `j` has been chosen to sort the `n` elements at `a`. -/
structure Chosen (j : ℕ) (a n : ℤ) : Prop where
  work : (d.pool j).st = .work
  waiting : Waiting (w j)
  base : a = x.a + x.es * (d.part j).1
  length : n = (d.part j).2 - (d.part j).1

/-- What `allocate_thread` knows of the thread `j`. -/
def Found (j : ℕ) (a n : ℤ) : AllocPc → Prop
  | .decr | .lockSt | .setWork => (d.pool j).st = .idle
  | .unlockAl | .setA => Chosen x d w j a n
  | .setN => Chosen x d w j a n ∧ (d.pool j).a = a
  | _ => True

/-- What the thread `i` is busy with at a place. -/
def Task (i : ℕ) : WorkerPc → Prop
  | .start | .wait .lock | .wait .test | .wait .cond =>
    (d.pool i).st = .idle ∨
      (d.pool i).st = .work ∧ (Given x d i ∨ ∃ u, HandsOver i (w u))
  | .wait .unlock | .check | .assert | .load => (d.pool i).st = .work ∧ Given x d i
  | .sort t => (d.pool i).st = .work ∧ Sorts x (d.part i) t d.mem
  | .alloc p j a n k => (d.pool i).st = .work ∧ Sorts x (d.part i) (p.rest a n k) d.mem ∧
      p.Below x.maxthreads j ∧ Found x d w j a n p
  | .finish .setIdle => (d.pool i).st = .work ∧
      Sorted x.le (d.part i).1 (d.part i).2 (x.array d.mem)
  | .finish _ => (d.pool i).st = .idle
  | _ => False

end Tasks

/-- The pool while there is work to do. -/
structure Open {B : Type} (x : Args B) (m₀ : ℤ → B) (d : Data B) (w : ℕ → WorkerPc) : Prop where
  task : ∀ i, Task x d w i (w i)
  inside : ∀ i, (d.pool i).st = .work → i < x.maxthreads
  nthreads : d.nthreads = x.maxthreads
  count : d.idlethreads = ∑ i ∈ Finset.range x.maxthreads, share (d.pool i).st (w i)
  /-- Somebody works, or is about to find out whether it was the last one. -/
  alive : ∃ i < x.maxthreads, (d.pool i).st = .work ∨ w i = .finish .count ∨ w i = .finish .test
  parts : Parts x.le x.n (fun i => (d.pool i).st = .work) d.part (x.array d.mem)
  shuffle : Shuffle 0 x.n (x.array m₀) (x.array d.mem)
  frame : ∀ y, ¬ (x.a ≤ y ∧ y < x.a + x.es * x.n) → d.mem y = m₀ y

/-- Nobody else has a mutex of the thread `i`; at most it waits for it. -/
def Excl (w : ℕ → WorkerPc) (i : ℕ) : Prop :=
  ∀ u m, u ≠ i → holds (.worker i) (.worker (w i)) m → holds (.worker u) (.worker (w u)) m →
    w u = .wait .test ∧ m = .st u

section Lemmas
variable {B : Type} {x : Args B} {m₀ : ℤ → B} {d d' : Data B} {w w' : ℕ → WorkerPc} {i j u : ℕ}
  {pc pc' : WorkerPc} {a n : ℤ} {p : AllocPc} {k : Bool → SortProg Unit}

theorem setSt_self (st : ThreadState) : (d.setSt i st).pool i = { d.pool i with st := st } :=
  Function.update_self ..

theorem setSt_of_ne (st : ThreadState) (h : j ≠ i) : (d.setSt i st).pool j = d.pool j :=
  Function.update_of_ne h ..

theorem setA_self : (d.setA i a).pool i = { d.pool i with a := a } := Function.update_self ..

theorem setA_of_ne (h : j ≠ i) : (d.setA i a).pool j = d.pool j := Function.update_of_ne h ..

theorem setN_self : (d.setN i n).pool i = { d.pool i with n := n } := Function.update_self ..

theorem setN_of_ne (h : j ≠ i) : (d.setN i n).pool j = d.pool j := Function.update_of_ne h ..

theorem setSt_st (st : ThreadState) :
    (fun k => ((d.setSt i st).pool k).st) = Function.update (fun k => (d.pool k).st) i st := by
  funext k
  by_cases hk : k = i
  · subst hk
    rw [setSt_self, Function.update_self]
  · rw [setSt_of_ne st hk, Function.update_of_ne hk]

/-! ### What others do to a task -/

theorem HandsOver.holds (h : HandsOver j pc) : holds (.worker u) (.worker pc) (.st j) := by
  cases pc with
  | alloc p i a n k =>
    obtain ⟨hp, rfl⟩ := h
    cases p with
    | unlockAl => exact .inr rfl
    | setA | setN => exact rfl
    | _ => exact hp.elim
  | _ => exact h.elim

theorem HandsOver.not_waiting (h : HandsOver j pc) : ¬ Waiting pc := by
  cases pc with
  | alloc p i a n k => exact id
  | _ => exact h.elim

/-- The thread that has the mutex of a pool entry is the only one to fill it in. -/
theorem Excl.not_handsOver (h : Excl w i) (hi : holds (.worker i) (.worker (w i)) (.st j))
    (hu : u ≠ i) : ¬ HandsOver j (w u) := by
  intro ho
  obtain ⟨hpc, -⟩ := h u (.st j) hu hi ho.holds
  rw [hpc] at ho
  exact ho

/-- The thread that has `mtx_al` is the only one. -/
theorem Excl.not_al (h : Excl w i) (hi : holds (.worker i) (.worker (w i)) .al) (hu : u ≠ i) :
    ¬ holds (.worker u) (.worker (w u)) .al := by
  intro ho
  obtain ⟨-, hm⟩ := h u .al hu hi ho
  cases hm

theorem waiting_task (hpc : Waiting pc) : Task x d w i pc ↔ (d.pool i).st = .idle ∨
    (d.pool i).st = .work ∧ (Given x d i ∨ ∃ u, HandsOver i (w u)) := by
  cases pc with
  | start => exact Iff.rfl
  | wait p =>
    cases p with
    | unlock => exact hpc.elim
    | _ => exact Iff.rfl
  | _ => exact hpc.elim

theorem Chosen.keep (h : Chosen x d w j a n) (hst : (d'.pool j).st = (d.pool j).st)
    (hpart : d'.part j = d.part j) (hw : Waiting (w' j)) : Chosen x d' w' j a n :=
  ⟨hst.trans h.work, hw, hpart ▸ h.base, hpart ▸ h.length⟩

/-- What `allocate_thread` knows of a thread does not change as long as the thread is left alone. -/
theorem Found.keep (h : Found x d w j a n p) (hst : (d'.pool j).st = (d.pool j).st)
    (hset : p.Fills → Waiting (w j) → d'.part j = d.part j ∧ (d'.pool j).a = (d.pool j).a ∧
      Waiting (w' j)) : Found x d' w' j a n p := by
  have hchosen (hp : p.Fills) (hc : Chosen x d w j a n) :
      Chosen x d' w' j a n ∧ (d'.pool j).a = (d.pool j).a := by
    obtain ⟨hpart, ha, hw⟩ := hset hp hc.waiting
    exact ⟨hc.keep hst hpart hw, ha⟩
  cases p with
  | unlockAl | setA => exact (hchosen trivial h).1
  | setN =>
    obtain ⟨hc, ha⟩ := hchosen trivial h.1
    exact ⟨hc, ha.trans h.2⟩
  | decr | lockSt | setWork => exact hst.trans h
  | loop | test | signal | unlockSt | fail => trivial

/-- A thread without `mtx_al` knows only of threads that it has chosen. -/
theorem Found.off_al (h : Found x d w j a n p)
    (hal : ¬ holds (.worker u) (.worker (.alloc p j a n k)) .al)
    (hset : (d.pool j).st = .work → Waiting (w j) →
      d'.pool j = d.pool j ∧ d'.part j = d.part j ∧ Waiting (w' j)) : Found x d' w' j a n p := by
  have hchosen (hc : Chosen x d w j a n) : Chosen x d' w' j a n ∧ d'.pool j = d.pool j := by
    obtain ⟨hpool, hpart, hw⟩ := hset hc.work hc.waiting
    exact ⟨hc.keep (by rw [hpool]) hpart hw, hpool⟩
  cases p with
  | setA => exact (hchosen h).1
  | setN =>
    obtain ⟨hc, hpool⟩ := hchosen h.1
    exact ⟨hc, hpool ▸ h.2⟩
  | unlockAl => exact absurd (.inl rfl) hal
  | decr | lockSt => exact absurd rfl hal
  | setWork => exact absurd (.inl rfl) hal
  | loop | test | signal | unlockSt | fail => trivial

/-- A task does not change when nothing changes that it is about. -/
theorem Task.keep (h : Task x d w i pc) (hst : (d'.pool i).st = (d.pool i).st)
    (hpart : (d.pool i).st = .work → d'.part i = d.part i)
    (hmem : (d.pool i).st = .work →
      ∀ y, (d.part i).1 ≤ y → y < (d.part i).2 → x.array d'.mem y = x.array d.mem y)
    (hgiven : Given x d i → Given x d' i)
    (hhands : ∀ u, HandsOver i (w u) → Given x d' i ∨ ∃ v, HandsOver i (w' v))
    (hfound : ∀ p j a n k, pc = .alloc p j a n k → Found x d w j a n p → Found x d' w' j a n p) :
    Task x d' w' i pc := by
  have accepted (h : (d.pool i).st = .work ∧ Given x d i) :
      (d'.pool i).st = .work ∧ Given x d' i := ⟨hst.trans h.1, hgiven h.2⟩
  have sorts {t : SortProg Unit} (hw : (d.pool i).st = .work) (h : Sorts x (d.part i) t d.mem) :
      Sorts x (d'.part i) t d'.mem := by
    rw [hpart hw]
    exact h.agree (hmem hw)
  by_cases hpc : Waiting pc
  · rw [waiting_task hpc] at h ⊢
    rw [hst]
    refine h.imp_right fun ⟨hw, hg⟩ => ⟨hw, ?_⟩
    rcases hg with hg | ⟨u, hu⟩
    · exact .inl (hgiven hg)
    · exact hhands u hu
  cases pc with
  | start => exact absurd trivial hpc
  | wait p =>
    cases p with
    | unlock => exact accepted h
    | _ => exact absurd trivial hpc
  | check | assert | load => exact accepted h
  | sort t => exact ⟨hst.trans h.1, sorts h.1 h.2⟩
  | alloc p j a n k =>
    exact ⟨hst.trans h.1, sorts h.1 h.2.1, h.2.2.1, hfound p j a n k rfl h.2.2.2⟩
  | finish p =>
    cases p with
    | setIdle =>
      refine ⟨hst.trans h.1, fun y z hy hyz hz => ?_⟩
      rw [hpart h.1] at hy hz
      rw [hmem h.1 y hy (by omega), hmem h.1 z (by omega) hz]
      exact h.2 y z hy hyz hz
    | _ => exact hst.trans h
  | last | term | lastUnlock | leave | done | aborted => exact h.elim

/-- A thread that does not wait works or holds `mtx_al`. -/
theorem Task.idle_cases (h : Task x d w i pc) (hst : (d.pool i).st = .idle) :
    Waiting pc ∨ holds (.worker i) (.worker pc) .al := by
  cases pc with
  | start => exact .inl trivial
  | wait p =>
    cases p with
    | unlock =>
      have hw := h.1
      rw [hst] at hw
      cases hw
    | _ => exact .inl trivial
  | check | assert | load | sort | alloc =>
    have hw := h.1
    rw [hst] at hw
    cases hw
  | finish p =>
    cases p with
    | setIdle =>
      have hw := h.1
      rw [hst] at hw
      cases hw
    | _ => exact .inr rfl
  | last | term | lastUnlock | leave | done | aborted => exact h.elim

/-! ### The count of idle threads -/

theorem share_work (pc : WorkerPc) : share .work pc = -pending pc := by simp [share]

theorem share_idle (pc : WorkerPc) : share .idle pc = 1 - pending pc := rfl

/-- A sum in which one term changes. -/
theorem sum_point {f f' : ℕ → ℤ} {c : ℤ} {N : ℕ} (hi : i < N)
    (hf : ∀ k, f' k = f k + if k = i then c else 0) :
    ∑ k ∈ Finset.range N, f' k = ∑ k ∈ Finset.range N, f k + c := by
  have hsum : ∑ k ∈ Finset.range N, (if k = i then c else 0) = c := by
    rw [Finset.sum_ite_eq' (Finset.range N) i fun _ => c, if_pos (Finset.mem_range.mpr hi)]
  calc ∑ k ∈ Finset.range N, f' k
      = ∑ k ∈ Finset.range N, (f k + if k = i then c else 0) :=
        Finset.sum_congr rfl fun k _ => hf k
    _ = _ := by rw [Finset.sum_add_distrib, hsum]

/-- When one thread moves. -/
theorem sum_share (st : ℕ → ThreadState) (w : ℕ → WorkerPc) {N : ℕ} (hi : i < N)
    (pc' : WorkerPc) (st' : ThreadState) :
    ∑ k ∈ Finset.range N, share (Function.update st i st' k) (Function.update w i pc' k) =
      ∑ k ∈ Finset.range N, share (st k) (w k) + (share st' pc' - share (st i) (w i)) := by
  refine sum_point hi fun k => ?_
  by_cases hk : k = i
  · subst hk
    simp
  · simp [hk]

/-! ### Steps of a thread -/

theorem Open.task_at (h : Open x m₀ d w) (hpc : w i = pc) : Task x d w i pc := hpc ▸ h.task i

theorem HandsOver.of_update (h : ∃ u, HandsOver j (w u))
    (hi : HandsOver j (w i) → HandsOver j pc') : ∃ u, HandsOver j (Function.update w i pc' u) := by
  obtain ⟨u, hu⟩ := h
  refine ⟨u, ?_⟩
  by_cases hui : u = i
  · subst hui
    rw [Function.update_self]
    exact hi hu
  · rwa [Function.update_of_ne hui]

/-- The task of a thread when another one moves. -/
theorem Open.others (h : Open x m₀ d w) (hj : j ≠ i) (hst : (d'.pool j).st = (d.pool j).st)
    (hpart : (d.pool j).st = .work → d'.part j = d.part j)
    (hmem : (d.pool j).st = .work →
      ∀ y, (d.part j).1 ≤ y → y < (d.part j).2 → x.array d'.mem y = x.array d.mem y)
    (hgiven : Given x d j → Given x d' j)
    (hhands : HandsOver j (w i) → Given x d' j ∨ HandsOver j pc')
    (hfound : ∀ p l a n k, w j = .alloc p l a n k → Found x d w l a n p →
      Found x d' (Function.update w i pc') l a n p) :
    Task x d' (Function.update w i pc') j (Function.update w i pc' j) := by
  rw [Function.update_of_ne hj]
  refine Task.keep (h.task j) hst hpart hmem hgiven (fun u hu => ?_) hfound
  by_cases hui : u = i
  · subst hui
    refine (hhands hu).imp_right fun ho => ⟨u, ?_⟩
    rwa [Function.update_self]
  · exact .inr ⟨u, by rwa [Function.update_of_ne hui]⟩

/-- A thread moves on; no entry and no element changes. -/
theorem Open.move (h : Open x m₀ d w) {c : ℤ} (hi : i < x.maxthreads)
    (htask : Task x d w i pc')
    (hc : c = d.idlethreads + (share (d.pool i).st pc' - share (d.pool i).st (w i)))
    (hhands : ∀ j, HandsOver j (w i) ↔ HandsOver j pc')
    (hwait : (∃ u, HandsOver i (w u)) → Waiting (w i) → Waiting pc')
    (halive : w i = .finish .count ∨ w i = .finish .test → pc' = .finish .test ∨
      ∃ j < x.maxthreads, (d.pool j).st = .work) :
    Open x m₀ { d with idlethreads := c } (Function.update w i pc') := by
  -- a thread that is told what to sort goes on waiting
  have hfound {l : ℕ} {p : AllocPc} {a n : ℤ} (hown : p.Fills → ∃ v, HandsOver l (w v))
      (hf : Found x d w l a n p) :
      Found x { d with idlethreads := c } (Function.update w i pc') l a n p := by
    refine Found.keep hf rfl fun hp hwl => ⟨rfl, rfl, ?_⟩
    by_cases hl : l = i
    · subst hl
      rw [Function.update_self]
      exact hwait (hown hp) hwl
    · rwa [Function.update_of_ne hl]
  refine ⟨fun j => ?_, h.inside, h.nthreads, ?_, ?_, h.parts, h.shuffle, h.frame⟩
  · by_cases hj : j = i
    · subst hj
      rw [Function.update_self]
      refine Task.keep htask rfl (fun _ => rfl) (fun _ _ _ _ => rfl) id
        (fun u hu => .inr (HandsOver.of_update ⟨u, hu⟩ (hhands j).mp)) fun p l a n k hq => ?_
      refine hfound fun hp => ⟨j, (hhands l).mpr ?_⟩
      rw [hq]
      exact ⟨hp, rfl⟩
    · refine h.others hj rfl (fun _ => rfl) (fun _ _ _ _ => rfl) id
        (fun hu => .inr ((hhands j).mp hu)) fun p l a n k hq => ?_
      refine hfound fun hp => ⟨j, ?_⟩
      rw [hq]
      exact ⟨hp, rfl⟩
  · have hsum := sum_share (fun k => (d.pool k).st) w hi pc' (d.pool i).st
    rw [Function.update_eq_self] at hsum
    rw [hc, h.count]
    exact hsum.symm
  · obtain ⟨j, hj, hal⟩ := h.alive
    by_cases hji : j = i
    · subst hji
      rcases hal with hal | hal
      · exact ⟨j, hj, .inl hal⟩
      · rcases halive hal with rfl | ⟨l, hl, hw⟩
        · exact ⟨j, hj, .inr (.inr (Function.update_self ..))⟩
        · exact ⟨l, hl, .inl hw⟩
    · exact ⟨j, hj, by rwa [Function.update_of_ne hji]⟩

/-- A comparison or an exchange. -/
theorem Open.call (hx : x.Valid) (h : Open x m₀ d w) {o : SortOp} {k : Answer o → SortProg Unit}
    (hpc : w i = .sort (.op o k)) :
    let r := onMemory x.es (swaptype x.a x.es) x.cmp o d.mem
    Open x m₀ { d with mem := r.2 } (Function.update w i (.sort (k r.1))) := by
  obtain ⟨hwork, hsorts⟩ := h.task_at hpc
  have hbounds := h.parts.bounds i hwork
  obtain ⟨-, hnext, hshuffle, hframe⟩ := hsorts.call hx hbounds.1 hbounds.2.2
  intro r
  have hi := h.inside i hwork
  refine ⟨fun j => ?_, h.inside, h.nthreads, ?_, ⟨i, hi, .inl hwork⟩,
    h.parts.work hwork hshuffle, h.shuffle.trans (hshuffle.mono hbounds.1 hbounds.2.2), ?_⟩
  · by_cases hj : j = i
    · subst hj
      rw [Function.update_self]
      exact ⟨hwork, hnext⟩
    · refine h.others hj rfl (fun _ => rfl) (fun hjw y hy hy' => ?_) id (fun hu => ?_)
        fun p l a n k hq hf => Found.keep hf rfl fun _ hw => ⟨rfl, rfl, ?_⟩
      · have hdisj := h.parts.disjoint j i hjw hwork hj
        exact hshuffle.outside (by omega)
      · rw [hpc] at hu
        exact hu.elim
      · have hl : l ≠ i := by
          rintro rfl
          rw [hpc] at hw
          exact hw
        rwa [Function.update_of_ne hl]
  · have hsum := sum_share (fun k => (d.pool k).st) w hi (.sort (k r.1)) (d.pool i).st
    rw [Function.update_eq_self, hpc] at hsum
    rw [h.count]
    simpa [share, pending] using hsum.symm
  · intro y hy
    have hes : (0 : ℤ) ≤ x.es := Int.natCast_nonneg _
    have hlo : (x.es : ℤ) * 0 ≤ x.es * (d.part i).1 := mul_le_mul_of_nonneg_left hbounds.1 hes
    have hhi : (x.es : ℤ) * (d.part i).2 ≤ x.es * x.n := mul_le_mul_of_nonneg_left hbounds.2.2 hes
    exact (hframe y (by omega)).trans (h.frame y hy)

/-- The parts after the thread `i` has handed the elements from `lo` on to the thread `j`. -/
theorem handOver_part (d : Data B) (hes : 1 ≤ x.es) (hji : j ≠ i) (lo n : ℤ) :
    (d.handOver x i j (x.a + x.es * lo) n).part i = (lo + n, (d.part i).2) ∧
      (d.handOver x i j (x.a + x.es * lo) n).part j = (lo, lo + n) ∧
      ∀ l, l ≠ i → l ≠ j → (d.handOver x i j (x.a + x.es * lo) n).part l = d.part l := by
  have hbase : (x.a + x.es * lo - x.a) / (x.es : ℤ) = lo := by
    rw [add_sub_cancel_left, Int.mul_ediv_cancel_left _ (by omega)]
  refine ⟨?_, ?_, fun l hli hlj => ?_⟩
  · simp only [Data.handOver, hbase, Function.update_self]
  · simp only [Data.handOver, hbase, Function.update_of_ne hji, Function.update_self]
  · simp only [Data.handOver, Function.update_of_ne hli, Function.update_of_ne hlj]

/-- The thread `j` gets the part that the thread `i` hands out. -/
theorem Open.setWork (hx : x.Valid) (h : Open x m₀ d w) (hex : Excl w i)
    (hpc : w i = .alloc .setWork j a n k) :
    Open x m₀ ((d.setSt j .work).handOver x i j a n)
      (Function.update w i (.alloc .unlockAl j a n k)) := by
  obtain ⟨hwork, hsorts, hjN, hfound⟩ := h.task_at hpc
  have hidle : (d.pool j).st = .idle := hfound
  have hjN : j < x.maxthreads := hjN
  obtain ⟨lo, rfl, hn, hlo, hhi, hparted, -, hnext⟩ := hsorts.allocate
  have hi := h.inside i hwork
  have hji : j ≠ i := by
    rintro rfl
    rw [hwork] at hidle
    cases hidle
  have hal : holds (.worker i) (.worker (w i)) .al := by
    rw [hpc]
    exact .inl rfl
  have hwait : Waiting (w j) :=
    (Task.idle_cases (h.task j) hidle).resolve_right (hex.not_al hal hji)
  obtain ⟨hparti, hpartj, hpart⟩ := handOver_part (d.setSt j .work) hx.es_pos hji lo n
  set d' := (d.setSt j .work).handOver x i j (x.a + x.es * lo) n
  have hpool (l : ℕ) (hl : l ≠ j) : d'.pool l = d.pool l := setSt_of_ne _ hl
  have hworkj : (d'.pool j).st = .work := congrArg Slot.st (setSt_self _)
  have hst : (fun l => (d'.pool l).st) = Function.update (fun k => (d.pool k).st) j .work :=
    setSt_st _
  have hactive (l : ℕ) : (d'.pool l).st = .work ↔ (d.pool l).st = .work ∨ l = j := by
    by_cases hl : l = j
    · subst hl
      simp [hworkj]
    · simp [hpool l hl, hl]
  have hwaitj : Waiting (Function.update w i (.alloc .unlockAl j (x.a + x.es * lo) n k) j) := by
    rwa [Function.update_of_ne hji]
  have hhand : HandsOver j
      (Function.update w i (.alloc .unlockAl j (x.a + x.es * lo) n k) i) := by
    rw [Function.update_self]
    exact ⟨trivial, rfl⟩
  refine ⟨fun l => ?_, fun l hl => ?_, h.nthreads, ?_, ⟨i, hi, .inl ((hactive i).mpr (.inl hwork))⟩,
    h.parts.split hwork (by simp [hidle]) hlo (by omega) (by omega) hparted hactive hpartj hparti hpart,
    h.shuffle, h.frame⟩
  · by_cases hli : l = i
    · subst hli
      rw [Function.update_self]
      refine ⟨(hactive l).mpr (.inl hwork), ?_, hjN, ?_⟩
      · rw [hparti]
        exact hnext
      · exact ⟨hworkj, hwaitj, by rw [hpartj], by rw [hpartj]; simp⟩
    by_cases hlj : l = j
    · subst hlj
      exact (waiting_task hwaitj).mpr (.inr ⟨hworkj, .inr ⟨i, hhand⟩⟩)
    refine h.others hli (by rw [hpool l hlj]) (fun _ => hpart l hli hlj) (fun _ _ _ _ => rfl)
      (fun hg => ?_) (fun hu => ?_) fun p q a n k hq hf => ?_
    · unfold Given
      rw [hpool l hlj, hpart l hli hlj]
      exact hg
    · rw [hpc] at hu
      exact hu.1.elim
    · -- this one does not wait
      refine Found.off_al hf (hq ▸ hex.not_al hal hli) fun hwq hwait => ?_
      have hqj : q ≠ j := by
        rintro rfl
        rw [hidle] at hwq
        cases hwq
      have hqi : q ≠ i := by
        rintro rfl
        rw [hpc] at hwait
        exact hwait
      exact ⟨hpool q hqj, hpart q hqi hqj, by rwa [Function.update_of_ne hqi]⟩
  · rcases (hactive l).mp hl with hl | rfl
    · exact h.inside l hl
    · exact hjN
  · set pc' := WorkerPc.alloc .unlockAl j (x.a + x.es * lo) n k
    have hmove := sum_share (fun l => (d.pool l).st) w hi pc' (d.pool i).st
    have hgive := sum_share (fun l => (d.pool l).st) (Function.update w i pc')
      hjN (Function.update w i pc' j) .work
    rw [Function.update_eq_self] at hmove hgive
    have hcount : d.idlethreads = ∑ l ∈ Finset.range x.maxthreads,
        share (Function.update (fun l => (d.pool l).st) j .work l) (Function.update w i pc' l) := by
      have hbefore : pending (.alloc .setWork j (x.a + x.es * lo) n k) = 1 := rfl
      have hafter : pending pc' = 0 := rfl
      rw [hgive, hmove, h.count, Function.update_of_ne hji, hpc, hidle, hwork, share_work,
        share_work, share_work, share_idle]
      omega
    exact hcount.trans (Finset.sum_congr rfl fun l _ => by rw [← congrFun hst l])

/-- A thread that tells the thread `j` what to sort. -/
theorem Open.fill (h : Open x m₀ d w) {pool' : ℕ → Slot} (hwork : (d.pool i).st = .work)
    (hchosen : Chosen x d w j a n) (hi : ¬ Waiting (w i)) (hfree : ∀ u, u ≠ i → ¬ HandsOver j (w u))
    (hnot : ∀ l, HandsOver l (w i) → l = j) (hpend : pending pc' = pending (w i))
    (hpool : ∀ l, l ≠ j → pool' l = d.pool l) (hst : (pool' j).st = (d.pool j).st)
    (hgiven : HandsOver j pc' ∨ Given x { d with pool := pool' } j)
    (htask : Task x { d with pool := pool' } (Function.update w i pc') i pc') :
    Open x m₀ { d with pool := pool' } (Function.update w i pc') := by
  have hsame (l : ℕ) : (pool' l).st = (d.pool l).st := by
    by_cases hl : l = j
    · rw [hl, hst]
    · rw [hpool l hl]
  have hji : j ≠ i := by
    rintro rfl
    exact hi hchosen.waiting
  refine ⟨fun l => ?_, fun l hl => h.inside l ((hsame l).symm.trans hl), h.nthreads, ?_,
    ⟨i, h.inside i hwork, .inl ((hsame i).trans hwork)⟩, ?_, h.shuffle, h.frame⟩
  · by_cases hli : l = i
    · subst hli
      rw [Function.update_self]
      exact htask
    by_cases hlj : l = j
    · subst hlj
      rw [Function.update_of_ne hli]
      refine (waiting_task hchosen.waiting).mpr (.inr ⟨hst.trans hchosen.work, ?_⟩)
      exact hgiven.symm.imp_right fun ho => ⟨i, by rwa [Function.update_self]⟩
    refine h.others hli (hsame l) (fun _ => rfl) (fun _ _ _ _ => rfl) (fun hg => ?_)
      (fun hu => absurd (hnot l hu) hlj) fun p q a' n' k' hq hf => ?_
    · exact ⟨(congrArg Slot.a (hpool l hlj)).trans hg.1, (congrArg Slot.n (hpool l hlj)).trans hg.2⟩
    · refine Found.keep hf (hsame q) fun hp hw => ?_
      have hqj : q ≠ j := fun he => hfree l hli (by rw [hq]; exact ⟨hp, he⟩)
      have hqi : q ≠ i := by
        rintro rfl
        exact hi hw
      exact ⟨rfl, congrArg Slot.a (hpool q hqj), by rwa [Function.update_of_ne hqi]⟩
  · have hmove := sum_share (fun l => (d.pool l).st) w (h.inside i hwork) pc' (d.pool i).st
    rw [Function.update_eq_self, hwork, share_work, share_work, hpend] at hmove
    refine h.count.trans ?_
    simp only [hsame]
    omega
  · have hparts := h.parts
    simp only [← hsame] at hparts
    exact hparts

/-- A thread that has sorted its part. -/
theorem Open.setIdle (h : Open x m₀ d w) (hex : Excl w i) (hpc : w i = .finish .setIdle) :
    Open x m₀ (d.setSt i .idle) (Function.update w i (.finish .count)) := by
  obtain ⟨hwork, hsorted⟩ := h.task_at hpc
  have hi := h.inside i hwork
  have hal : holds (.worker i) (.worker (w i)) .al := by
    rw [hpc]
    exact rfl
  have hidle : ((d.setSt i .idle).pool i).st = .idle := congrArg Slot.st (setSt_self _)
  have hactive (l : ℕ) : ((d.setSt i .idle).pool l).st = .work ↔ (d.pool l).st = .work ∧ l ≠ i := by
    by_cases hl : l = i
    · subst hl
      simp [hidle]
    · simp [setSt_of_ne _ hl, hl]
  refine ⟨fun l => ?_, fun l hl => h.inside l ((hactive l).mp hl).1, h.nthreads, ?_,
    ⟨i, hi, .inr (.inl (Function.update_self ..))⟩, h.parts.finish hsorted hactive,
    h.shuffle, h.frame⟩
  · by_cases hli : l = i
    · subst hli
      rw [Function.update_self]
      exact hidle
    refine h.others hli (by rw [setSt_of_ne _ hli]) (fun _ => rfl) (fun _ _ _ _ => rfl) (fun hg => ?_)
      (fun hu => ?_) fun p q a n k hq hf => ?_
    · unfold Given
      rw [setSt_of_ne _ hli]
      exact hg
    · rw [hpc] at hu
      exact hu.elim
    · refine Found.off_al hf (hq ▸ hex.not_al hal hli) fun _ hw => ?_
      have hqi : q ≠ i := by
        rintro rfl
        rw [hpc] at hw
        exact hw
      exact ⟨setSt_of_ne _ hqi, rfl, by rwa [Function.update_of_ne hqi]⟩
  · have hmove := sum_share (fun l => (d.pool l).st) w hi (.finish .count) .idle
    have hbefore : pending (.finish .setIdle) = 0 := rfl
    have hafter : pending (.finish .count) = 1 := rfl
    have hcount : d.idlethreads = ∑ l ∈ Finset.range x.maxthreads,
        share (Function.update (fun l => (d.pool l).st) i .idle l)
          (Function.update w i (.finish .count) l) := by
      rw [hmove, h.count, hpc, hwork, share_work, share_idle]
      omega
    exact hcount.trans (Finset.sum_congr rfl fun l _ => by rw [← congrFun (setSt_st _) l])

end Lemmas

end LinuxSummer.Pool
