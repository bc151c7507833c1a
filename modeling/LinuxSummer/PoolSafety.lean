import Mathlib.Algebra.BigOperators.Ring.Finset
import LinuxSummer.PoolProgress

/-! The thread pool of `qsort_mt` when all initialisation succeeds: it sorts the array, whatever the
order of the steps of its threads is. -/
namespace LinuxSummer.Pool
open Monitor Qsort
set_option linter.unusedSectionVars false

abbrev State (B : Type) := Config Thread (Shared Thread Mutex (Data B)) (Status Mutex Loc)

/-- `qsort_mt` has handed out the whole array and not yet freed the pool. -/
def MainPc.HandedOut : MainPc → Prop
  | .hand .signal | .hand .unlock | .joins | .bail _ | .join | .destroyMutex | .destroyCond
  | .free => True
  | _ => False

/-- The next step stores `ts_term`. -/
def StoresTerm : Loc → Prop
  | .main ⟨.bail .set, _, _, _⟩ => True
  | .worker (.term .set _) => True
  | _ => False

/-- What the pool guarantees in a state. A thread is busy with its part of the array from the store
of `ts_work` in its entry of the pool to that of `ts_idle`. -/
structure Safe {B : Type} (x : Args B) (m₀ : ℤ → B) (s : State B) : Prop where
  disjoint : ∀ i j, i ≠ j → (s.shared.data.pool i).st = .work → (s.shared.data.pool j).st = .work →
    (s.shared.data.part i).2 ≤ (s.shared.data.part j).1 ∨
      (s.shared.data.part j).2 ≤ (s.shared.data.part i).1
  /-- The range that a thread begins to sort is its part. -/
  load : ∀ i, Program.locs s (.worker i) = .worker .load → (s.shared.data.pool i).st = .work ∧
    (s.shared.data.pool i).a = x.a + x.es * (s.shared.data.part i).1 ∧
      (s.shared.data.pool i).n = (s.shared.data.part i).2 - (s.shared.data.part i).1
  /-- The range that is handed out is the part of the thread that gets it. -/
  handOut : ∀ i p j a n k, Program.locs s (.worker i) = .worker (.alloc p j a n k) → p.Fills →
    (s.shared.data.pool j).st = .work ∧ a = x.a + x.es * (s.shared.data.part j).1 ∧
      n = (s.shared.data.part j).2 - (s.shared.data.part j).1
  /-- A thread compares and exchanges elements of its part only. -/
  calls : ∀ i o k, Program.locs s (.worker i) = .worker (.sort (.op o k)) →
    (s.shared.data.pool i).st = .work ∧
      o.Inside x.es ((s.shared.data.part i).2 - (s.shared.data.part i).1).toNat
        (x.a + x.es * (s.shared.data.part i).1)
  count : ∀ l, Program.locs s .main = .main l → l.pc.HandedOut → s.shared.owner .al = none →
    (∀ i < x.maxthreads, (s.shared.data.pool i).st ≠ .term) → s.shared.data.idlethreads =
      ((Finset.range x.maxthreads).filter fun i => (s.shared.data.pool i).st = .idle).card
  term : ∀ t, StoresTerm (Program.locs s t) → (∀ i, (s.shared.data.pool i).st ≠ .work) ∧
    Sorted x.le 0 x.n (x.array s.shared.data.mem)
  assertion : ∀ i, Program.locs s (.worker i) ≠ .worker .aborted
  progress : ∀ l, Program.locs s .main = .main l → l.pc ≠ .done → ∃ t, ¬ (pool x).Blocked s t
  result : ∀ l, Program.locs s .main = .main l → l.pc = .done → Result x m₀ s.shared.data.mem

section Safety
variable {B : Type} {x : Args B} {m₀ : ℤ → B} {first : Option Resource} {l : MainLoc}
  {w : ℕ → WorkerPc} {pc : WorkerPc} {d : Data B} {i : ℕ} {s : State B}

/-- The phases of the pool. -/
theorem Stage.phase (h : Stage x m₀ d l w) : ((∀ i, Waiting (w i)) ∧ ∀ i, (d.pool i).st = .idle) ∨
    Handed x m₀ d w ∨ Open x m₀ d w ∨
      ∃ last, Ending x d w last ∧ (last ≠ none → Result x m₀ d.mem) := by
  have late (h : if l.bailout then Bailing x m₀ d l w
      else (Open x m₀ d w ∧ l.i = 0 ∧ (l.pc = .joins ∨ l.pc = .join)) ∨ Ended x m₀ d w) :
      Open x m₀ d w ∨ ∃ last, Ending x d w last ∧ (last ≠ none → Result x m₀ d.mem) := by
    split at h
    · exact .inr ⟨none, h.ending, fun hne => absurd rfl hne⟩
    · rcases h with ⟨ho, -⟩ | ⟨last, he, hres⟩
      · exact .inl ho
      · exact .inr ⟨some last, he, fun _ => hres⟩
  obtain ⟨pc, islot, i, bailout⟩ := l
  cases pc with
  | hand p =>
    cases p with
    | lock | setA | setN | setSt => exact .inl ⟨h.quiet.waiting, h.quiet.idle⟩
    | count => exact .inr (.inl h)
    | signal | unlock =>
      rcases h with ho | ⟨last, he, hres⟩
      · exact .inr (.inr (.inl ho))
      · exact .inr (.inr (.inr ⟨some last, he, fun _ => hres⟩))
  | joins | bail | join | destroyMutex | destroyCond | free | destroyAl | report =>
    exact .inr (.inr (late h))
  | qsort => exact .inr (.inr (.inr ⟨none, h.1, fun hne => absurd rfl hne⟩))
  | done =>
    obtain ⟨last, he, hres⟩ := h
    exact .inr (.inr (.inr ⟨last, he, fun _ => hres⟩))
  | _ =>
    have hquiet : Quiet m₀ d w := h
    exact .inl ⟨hquiet.waiting, hquiet.idle⟩

theorem Ending.not_work {last : Option ℕ} (h : Ending x d w last) (i : ℕ) :
    (d.pool i).st ≠ .work := by
  have htask := h.task i
  have cases_st (hst : (d.pool i).st = .idle ∨ (d.pool i).st = .term) : (d.pool i).st ≠ .work := by
    rcases hst with hst | hst <;> simp [hst]
  cases hpc : w i with
  | start =>
    rw [hpc] at htask
    exact cases_st htask.2
  | wait p =>
    rw [hpc] at htask
    cases p with
    | unlock => exact cases_st (.inr htask.2)
    | _ => exact cases_st htask.2
  | check =>
    rw [hpc] at htask
    exact cases_st (.inr htask.2)
  | last | term | lastUnlock =>
    rw [hpc] at htask
    exact cases_st (.inl htask.2.1)
  | leave | done =>
    rw [hpc] at htask
    rcases htask with ht | ht
    · exact cases_st (.inr ht.2)
    · exact cases_st (.inl ht.2.1)
  | assert | load | sort | alloc | finish | aborted =>
    rw [hpc] at htask
    exact htask.elim

theorem Stage.disjoint (h : Stage x m₀ d l w) {j : ℕ} (hij : i ≠ j) (hi : (d.pool i).st = .work)
    (hj : (d.pool j).st = .work) :
    (d.part i).2 ≤ (d.part j).1 ∨ (d.part j).2 ≤ (d.part i).1 := by
  rcases h.phase with ⟨-, hidle⟩ | hh | ho | ⟨last, he, -⟩
  · rw [hidle i] at hi
    cases hi
  · exact absurd (((hh.work i).mp hi).trans ((hh.work j).mp hj).symm) hij
  · exact ho.parts.disjoint i j hi hj hij
  · exact absurd hi (he.not_work i)

/-- In the midst of its work. -/
def Working : WorkerPc → Prop
  | .assert | .load | .sort _ | .alloc _ _ _ _ _ | .finish _ => True
  | _ => False

theorem Stage.open_of_working (h : Stage x m₀ d l w) (hw : Working (w i)) : Open x m₀ d w := by
  have not_waiting (hall : ∀ i, Waiting (w i)) : False := by
    have hi := hall i
    cases hpc : w i <;> rw [hpc] at hi hw
    case start => exact hw
    case wait => exact hw
    all_goals exact hi
  rcases h.phase with ⟨hall, -⟩ | hh | ho | ⟨last, he, -⟩
  · exact (not_waiting hall).elim
  · exact (not_waiting hh.waiting).elim
  · exact ho
  · have htask := he.task i
    cases hpc : w i <;> rw [hpc] at htask hw
    case assert | load | sort | alloc | finish => exact htask.elim
    all_goals exact hw.elim

theorem Stage.not_aborted (h : Stage x m₀ d l w) : w i ≠ .aborted := by
  intro hpc
  rcases h.phase with ⟨hall, -⟩ | hh | ho | ⟨last, he, -⟩
  · have hi := hall i
    rw [hpc] at hi
    exact hi
  · have hi := hh.waiting i
    rw [hpc] at hi
    exact hi
  · have hi := ho.task i
    rw [hpc] at hi
    exact hi
  · have hi := he.task i
    rw [hpc] at hi
    exact hi

/-- A thread asks others to terminate when there is no work left. -/
theorem Stage.telling {p : TermPc} {j : ℕ} (h : Stage x m₀ d l w) (hpc : w i = .term p j) :
    (∀ k, (d.pool k).st ≠ .work) ∧ Result x m₀ d.mem := by
  rcases h.phase with ⟨hall, -⟩ | hh | ho | ⟨last, he, hres⟩
  · have hi := hall i
    rw [hpc] at hi
    exact hi.elim
  · have hi := hh.waiting i
    rw [hpc] at hi
    exact hi.elim
  · have hi := ho.task i
    rw [hpc] at hi
    exact hi.elim
  · have hi := he.task i
    rw [hpc] at hi
    exact ⟨he.not_work, hres (by rw [hi.1]; simp)⟩

/-- Who takes back a thread that it has counted as idle, or does not yet count itself, has
`mtx_al`. -/
theorem pending_holds (h : pending pc ≠ 0) : holds (.worker i) (.worker pc) .al := by
  cases pc with
  | alloc p =>
    cases p with
    | lockSt => exact rfl
    | setWork => exact .inl rfl
    | _ => exact absurd rfl h
  | finish p => exact rfl
  | _ => exact absurd rfl h

/-- The count of idle threads when nobody is about to change it. -/
theorem Open.idle_count (h : Open x m₀ d w)
    (hfree : ∀ i, ¬ holds (.worker i) (.worker (w i)) .al) : d.idlethreads =
      ((Finset.range x.maxthreads).filter fun i => (d.pool i).st = .idle).card := by
  have hone (i : ℕ) (_ : i ∈ Finset.range x.maxthreads) :
      share (d.pool i).st (w i) = if (d.pool i).st = .idle then 1 else 0 := by
    have hpend : pending (w i) = 0 := by
      by_contra hne
      exact hfree i (pending_holds hne)
    rcases Task.st_cases (h.task i) with hst | hst
    · rw [hst, share_idle, hpend]
      simp
    · rw [hst, share_work, hpend]
      simp
  rw [h.count, Finset.sum_congr rfl hone, Finset.sum_boole]

theorem Ending.idle_count {last : ℕ} (h : Ending x d w (some last))
    (hterm : ∀ i < x.maxthreads, (d.pool i).st ≠ .term) : d.idlethreads =
      ((Finset.range x.maxthreads).filter fun i => (d.pool i).st = .idle).card := by
  have hidle (i : ℕ) (hi : i ∈ Finset.range x.maxthreads) : (d.pool i).st = .idle := by
    have hwork := h.not_work i
    have hnot := hterm i (Finset.mem_range.mp hi)
    cases hst : (d.pool i).st
    case idle => rfl
    case work => exact absurd hst hwork
    case term => exact absurd hst hnot
  rw [Finset.filter_true_of_mem hidle, Finset.card_range]
  exact h.count (by simp)

/-- What holds from the first hand-out on, when the initialisation has not failed. -/
theorem Stage.handedOut (h : Stage x m₀ d l w) (hpc : l.pc.HandedOut) (hbail : l.bailout = false) :
    Open x m₀ d w ∨ Ended x m₀ d w := by
  obtain ⟨pc, islot, i, bailout⟩ := l
  simp only at hbail
  subst hbail
  cases pc with
  | hand p =>
    cases p with
    | signal | unlock => exact h
    | _ => exact hpc.elim
  | joins | bail | join | destroyMutex | destroyCond | free => exact h.imp_left And.left
  | _ => exact hpc.elim

/-- No initialisation has failed. -/
theorem Bounds.not_bailed (h : Bounds x none l) (hpc : l.pc.HandedOut) : l.bailout = false := by
  obtain ⟨pc, islot, i, bailout⟩ := l
  obtain ⟨-, h⟩ := h
  have finishing (hf : Finishing x none ⟨pc, islot, i, bailout⟩) : bailout = false := by
    cases bailout with
    | false => rfl
    | true => exact absurd rfl (hf.1 rfl)
  cases pc with
  | hand p => exact h.1
  | joins | join | destroyMutex | destroyCond => exact finishing h.2
  | free => exact finishing h
  | bail p => exact absurd rfl h.2.2
  | _ => exact hpc.elim

/-- When all initialisation succeeds the pool sorts the array. -/
theorem pool_safe (hx : x.Valid) (hthreads : 1 ≤ x.maxthreads) (hfork : x.forkelem ≤ x.n)
    (h : (system x m₀).Reachable (failsAt none) s) : Safe x m₀ s := by
  have hsize : x.maxthreads = 0 → none = some Resource.mtxAl ∨ none = some Resource.pool :=
    fun hzero => by omega
  have hq : (none : Option Resource) ≠ none ∨ x.n < x.forkelem → ∀ m, Result x m (x.qsort m) := by
    rintro (hne | hlt)
    · exact absurd rfl hne
    · omega
  obtain ⟨l, w, hlocs, haccount, hbounds, hlife, hstage⟩ := stage_reachable hx hsize hq h
  have at_worker {i : ℕ} {pc : WorkerPc} (hi : Program.locs s (.worker i) = .worker pc) : w i = pc :=
    Loc.worker.inj ((congrFun hlocs (.worker i)).symm.trans hi)
  have at_main {l' : MainLoc} (hl : Program.locs s .main = .main l') : l' = l :=
    Loc.main.inj (hl.symm.trans (congrFun hlocs .main))
  refine ⟨fun i j hij => hstage.disjoint hij, fun i hi => ?_, fun i p j a n k hi hp => ?_,
    fun i o k hi => ?_, fun l' hl hpc hfree hterm => ?_, fun t ht => ?_,
    fun i hi => hstage.not_aborted (at_worker hi), fun l' hl hpc => ?_, fun l' hl hpc => ?_⟩
  · have hpc := at_worker hi
    exact (hstage.open_of_working (by rw [hpc]; trivial)).task_at hpc
  · have hpc := at_worker hi
    have hopen := hstage.open_of_working (by rw [hpc]; trivial)
    obtain ⟨-, -, -, hfound⟩ := hopen.task_at hpc
    have chosen (hc : Chosen x s.shared.data w j a n) : (s.shared.data.pool j).st = .work ∧
        a = x.a + x.es * (s.shared.data.part j).1 ∧
        n = (s.shared.data.part j).2 - (s.shared.data.part j).1 := ⟨hc.work, hc.base, hc.length⟩
    cases p with
    | unlockAl | setA => exact chosen hfound
    | setN => exact chosen hfound.1
    | _ => exact hp.elim
  · have hpc := at_worker hi
    have hopen := hstage.open_of_working (by rw [hpc]; trivial)
    obtain ⟨hwork, hsorts⟩ := hopen.task_at hpc
    have hb := hopen.parts.bounds i hwork
    exact ⟨hwork, (hsorts.call hx hb.1 hb.2.2).1⟩
  · obtain rfl := at_main hl
    rcases hstage.handedOut hpc (hbounds.not_bailed hpc) with ho | ⟨last, he, -⟩
    · refine ho.idle_count fun i hi => ?_
      rcases owns_of_holds h hlocs (t := .worker i) hi with howns | ⟨u, -, -, hm⟩
      · rw [((sound_reachable h).owner _ _).mpr howns] at hfree
        cases hfree
      · cases hm
    · exact he.idle_count hterm
  · cases t with
    | main =>
      rw [congrFun hlocs .main] at ht
      obtain ⟨pc, islot, i, bailout⟩ := l
      obtain ⟨-, hb⟩ := hbounds
      cases pc with
      | bail p => exact absurd rfl hb.2.2
      | _ => exact ht.elim
    | worker i =>
      rw [congrFun hlocs (.worker i)] at ht
      cases hpc : w i with
      | term p j =>
        obtain ⟨hnone, hres⟩ := hstage.telling hpc
        exact ⟨hnone, hres.sorted⟩
      | _ =>
        simp only [places, hpc] at ht
        exact ht.elim
  · obtain rfl := at_main hl
    exact not_stuck hx hsize hq h hlocs hpc
  · obtain rfl := at_main hl
    obtain ⟨pc, islot, i, bailout⟩ := l'
    simp only at hpc
    subst hpc
    obtain ⟨last, -, hres⟩ := hstage
    exact hres

/-- Two bytes in the wrong order, and one thread. -/
def twoBytes : Args UInt8 where
  a := 3
  n := 2
  es := 1
  cmp := cmpByte
  maxthreads := 1
  forkelem := 1
  qsort := id

def twoBytesMem (p : ℤ) : UInt8 := if p = 3 then 9 else 5

theorem twoBytes_valid : twoBytes.Valid := ⟨Nat.le_refl 1, by decide, cmpByte_preorder⟩

/-- No call fails, and no thread wakes up by itself. -/
def runsAct {B : Type} (_ : State B) (a : Thread × Act Thread) : Bool :=
  match a.2 with
  | .run => true
  | _ => false

def stepsOf (t : Thread) (n : ℕ) : List (Thread × Act Thread) := List.replicate n (t, .run)

theorem failsAt_of_runsAct {a : Thread × Act Thread} (h : runsAct s a = true) :
    failsAt none s a := by
  obtain ⟨t, a⟩ := a
  cases a <;> simp [runsAct] at h
  simp [failsAt]

theorem reachable_of_exec {as : List (Thread × Act Thread)}
    (h : (system x m₀).exec runsAct ((pool x).start (start m₀)) as = some s) :
    (system x m₀).Reachable (failsAt none) s :=
  ⟨_, rfl, System.run_of_exec (fun _ _ => failsAt_of_runsAct) h⟩

theorem pool_safe_twoBytes : ∃ s, (system twoBytes twoBytesMem).Reachable (failsAt none) s ∧
    Program.locs s .main = .main ⟨.done, 1, 1, false⟩ ∧ s.shared.data.mem 3 = 5 ∧
      s.shared.data.mem 4 = 9 ∧ Safe twoBytes twoBytesMem s := by
  have hrun : ∃ s, (system twoBytes twoBytesMem).exec runsAct
      ((pool twoBytes).start (start twoBytesMem))
      (stepsOf .main 18 ++ stepsOf (.worker 0) 17 ++ stepsOf .main 7) = some s ∧
      Program.locs s .main = .main ⟨.done, 1, 1, false⟩ ∧ s.shared.data.mem 3 = 5 ∧
        s.shared.data.mem 4 = 9 := ⟨_, rfl, rfl, rfl, rfl⟩
  obtain ⟨s, hexec, hdone, hfirst, hsecond⟩ := hrun
  have hreach := reachable_of_exec hexec
  exact ⟨s, hreach, hdone, hfirst, hsecond,
    pool_safe twoBytes_valid (Nat.le_refl 1) (by decide) hreach⟩

end Safety

end LinuxSummer.Pool
