import LinuxSummer.PoolMain

/-! The runs of `qsort_mt` and its threads: the pool is set up, works, comes to its end and is given
up, or the initialisation fails and the threads are sent away. -/
namespace LinuxSummer.Pool
open Monitor Qsort
set_option linter.unusedSectionVars false

section Stage
variable {B : Type} (x : Args B) (m₀ : ℤ → B) (d : Data B) (l : MainLoc) (w : ℕ → WorkerPc)

/-- Nothing is handed out yet. -/
structure Quiet : Prop where
  waiting : ∀ i, Waiting (w i)
  idle : ∀ i, (d.pool i).st = .idle
  mem : d.mem = m₀

/-- The pool is set up, and the first thread is about to get the whole array. -/
structure Ready : Prop where
  quiet : Quiet m₀ d w
  nthreads : d.nthreads = x.maxthreads
  idlethreads : d.idlethreads = x.maxthreads
  base : l.pc = .hand .setN ∨ l.pc = .hand .setSt → (d.pool 0).a = x.a
  length : l.pc = .hand .setSt → (d.pool 0).n = x.n

/-- The first thread has the whole array and does not know it. -/
structure Handed : Prop where
  waiting : ∀ i, Waiting (w i)
  work : ∀ i, (d.pool i).st = .work ↔ i = 0
  idle : ∀ i, i ≠ 0 → (d.pool i).st = .idle
  part : d.part 0 = (0, (x.n : ℤ))
  given : Given x d 0
  nthreads : d.nthreads = x.maxthreads
  idlethreads : d.idlethreads = x.maxthreads
  mem : d.mem = m₀

/-- The last thread has found out that the array is sorted. -/
def Ended : Prop := ∃ last, Ending x d w (some last) ∧ Result x m₀ d.mem

/-- The initialisation has failed, and the threads are asked to terminate one by one. -/
structure Bailing : Prop where
  ending : Ending x d w none
  mem : d.mem = m₀
  asked : l.pc = .bail .signal ∨ l.pc = .bail .unlock ∨ l.pc = .join → (d.pool l.i).st = .term

/-- What holds of the pool at a place of `qsort_mt`. -/
def Stage : Prop :=
  match l.pc with
  | .start | .initAl | .calloc | .slots | .initMutex | .initCond | .dropMutex | .setIdle | .create
  | .undoMutex | .undoCond | .common => Quiet m₀ d w
  | .hand .lock | .hand .setA | .hand .setN | .hand .setSt => Ready x m₀ d l w
  | .hand .count => Handed x m₀ d w
  | .hand .signal | .hand .unlock => Open x m₀ d w ∨ Ended x m₀ d w
  | .joins | .bail _ | .join | .destroyMutex | .destroyCond | .free | .destroyAl | .report =>
    if l.bailout then Bailing x m₀ d l w
    else (Open x m₀ d w ∧ l.i = 0 ∧ (l.pc = .joins ∨ l.pc = .join)) ∨ Ended x m₀ d w
  | .qsort => Ending x d w none ∧ d.mem = m₀
  | .done => ∃ last, Ending x d w last ∧ Result x m₀ d.mem

end Stage

section Worker
variable {B : Type} {x : Args B} {m₀ : ℤ → B} {first : Option Resource} {l l' : MainLoc}
  {d d' : Data B} {w : ℕ → WorkerPc} {b : Bool} {i : ℕ} {pc pc' : WorkerPc}

/-! ### Steps of the threads -/

theorem Waiting.step (hw : Waiting (w i)) (hidle : w i = .wait .test → (d.pool i).st = .idle)
    (he : Edge b (qsortThread x i (w i)) d d' (.worker pc')) : d' = d ∧ Waiting pc' := by
  cases hpc : w i with
  | start =>
    rw [hpc] at he
    simp only [qsortThread, Edge] at he
    split at he <;> cases he
    exact ⟨rfl, trivial⟩
  | wait p =>
    rw [hpc] at he hw
    cases p with
    | lock | cond =>
      obtain ⟨rfl, hk⟩ := he
      obtain rfl := Loc.worker.inj hk
      exact ⟨rfl, trivial⟩
    | test =>
      obtain ⟨rfl, hk⟩ := edge_statement he
      obtain rfl := Loc.worker.inj hk
      rw [if_pos (hidle hpc)]
      exact ⟨rfl, trivial⟩
    | unlock => exact hw.elim
  | _ =>
    rw [hpc] at hw
    exact hw.elim

theorem waiting_update (hw : ∀ j, Waiting (w j)) (hpc : Waiting pc') (j : ℕ) :
    Waiting (Function.update w i pc' j) := by
  by_cases hj : j = i
  · subst hj
    rwa [Function.update_self]
  · rw [Function.update_of_ne hj]
    exact hw j

theorem Quiet.step (h : Quiet m₀ d w) (he : Edge b (qsortThread x i (w i)) d d' (.worker pc')) :
    d' = d ∧ Quiet m₀ d' (Function.update w i pc') := by
  obtain ⟨rfl, hw⟩ := (h.waiting i).step (fun _ => h.idle i) he
  exact ⟨rfl, waiting_update h.waiting hw, h.idle, h.mem⟩

/-- The first thread waits for its mutex, which `qsort_mt` has. -/
theorem Handed.step (h : Handed x m₀ d w) (hmain : i = 0 → w i ≠ .wait .test)
    (he : Edge b (qsortThread x i (w i)) d d' (.worker pc')) :
    Handed x m₀ d' (Function.update w i pc') := by
  obtain ⟨rfl, hw⟩ := (h.waiting i).step (fun hpc => h.idle i fun hi => hmain hi hpc) he
  exact ⟨waiting_update h.waiting hw, h.work, h.idle, h.part, h.given, h.nthreads, h.idlethreads,
    h.mem⟩

theorem Ended.step (h : Ended x m₀ d w)
    (he : Edge b (qsortThread x i (w i)) d d' (.worker pc')) :
    Ended x m₀ d' (Function.update w i pc') := by
  obtain ⟨last, hend, hres⟩ := h
  obtain ⟨_, hk, hend', hset⟩ := hend.step he
  obtain rfl := Loc.worker.inj hk
  exact ⟨last, hend', hset.mem ▸ hres⟩

theorem Open.run (hx : x.Valid) (h : Open x m₀ d w) (hex : Excl w i) (hi : i < x.maxthreads)
    (he : Edge b (qsortThread x i (w i)) d d' (.worker pc')) :
    Open x m₀ d' (Function.update w i pc') ∨ Ended x m₀ d' (Function.update w i pc') := by
  obtain ⟨_, hk, hnext⟩ := h.step hx hex hi he
  obtain rfl := Loc.worker.inj hk
  exact hnext.imp_right fun hend => ⟨i, hend⟩

/-- A step of a thread. -/
theorem Stage.worker (hx : x.Valid) (h : Stage x m₀ d l w) (hex : Excl w i) (hi : i < x.maxthreads)
    (hmain : l.pc = .hand .count → i = 0 → w i ≠ .wait .test)
    (he : Edge b (qsortThread x i (w i)) d d' (.worker pc')) :
    Stage x m₀ d' l (Function.update w i pc') := by
  obtain ⟨pc, islot, j, bailout⟩ := l
  have late (h : if bailout then Bailing x m₀ d ⟨pc, islot, j, bailout⟩ w
      else (Open x m₀ d w ∧ j = 0 ∧ (pc = .joins ∨ pc = .join)) ∨ Ended x m₀ d w) :
      if bailout then Bailing x m₀ d' ⟨pc, islot, j, bailout⟩ (Function.update w i pc')
      else (Open x m₀ d' (Function.update w i pc') ∧ j = 0 ∧ (pc = .joins ∨ pc = .join)) ∨
        Ended x m₀ d' (Function.update w i pc') := by
    cases bailout with
    | true =>
      simp only [if_true] at h ⊢
      obtain ⟨_, hk, hend, hset⟩ := h.ending.step he
      obtain rfl := Loc.worker.inj hk
      exact ⟨hend, hset.mem.trans h.mem, fun hp => hset.term _ (h.asked hp)⟩
    | false =>
      simp only [Bool.false_eq_true, if_false] at h ⊢
      rcases h with ⟨hopen, hj⟩ | hend
      · exact (hopen.run hx hex hi he).imp_left fun ho => ⟨ho, hj⟩
      · exact .inr (hend.step he)
  cases pc with
  | hand p =>
    cases p with
    | lock | setA | setN | setSt =>
      obtain ⟨rfl, hq⟩ := h.quiet.step he
      exact ⟨hq, h.nthreads, h.idlethreads, h.base, h.length⟩
    | count => exact Handed.step h (hmain rfl) he
    | signal | unlock =>
      rcases h with hopen | hend
      · exact hopen.run hx hex hi he
      · exact .inr (hend.step he)
  | joins | bail | join | destroyMutex | destroyCond | free | destroyAl | report => exact late h
  | qsort =>
    obtain ⟨_, hk, hend, hset⟩ := h.1.step he
    obtain rfl := Loc.worker.inj hk
    exact ⟨hend, hset.mem.trans h.2⟩
  | done =>
    obtain ⟨last, hend, hres⟩ := h
    obtain ⟨_, hk, hend', hset⟩ := hend.step he
    obtain rfl := Loc.worker.inj hk
    exact ⟨last, hend', hset.mem ▸ hres⟩
  | _ => exact (Quiet.step h he).2

end Worker

section Main
variable {B : Type} {x : Args B} {m₀ : ℤ → B} {first : Option Resource} {l l' : MainLoc}
  {d d' : Data B} {w : ℕ → WorkerPc} {b : Bool}

/-! ### Steps of `qsort_mt` -/

theorem Quiet.ending (h : Quiet m₀ d w) : Ending x d w none :=
  ⟨fun i => closing_waiting (h.waiting i) (by simp) (.inl (h.idle i)), fun hn => absurd rfl hn,
    fun hn => absurd rfl hn⟩

theorem Quiet.setSt (h : Quiet m₀ d w) (i : ℕ) : Quiet m₀ (d.setSt i .idle) w := by
  refine ⟨h.waiting, fun j => ?_, h.mem⟩
  by_cases hj : j = i
  · rw [hj, setSt_self]
  · rw [setSt_of_ne _ hj]
    exact h.idle j

theorem Quiet.bailing (h : Quiet m₀ d w)
    (hpc : l.pc = .joins ∨ l.pc = .destroyAl) : Bailing x m₀ d l w := by
  refine ⟨h.ending, h.mem, fun hask => ?_⟩
  rcases hpc with hpc | hpc <;> rw [hpc] at hask <;> simp at hask

/-- The first hand-out. -/
theorem Handed.open (h : Handed x m₀ d w) (hN : 0 < x.maxthreads) :
    Open x m₀ { d with idlethreads := d.idlethreads - 1 } w := by
  have hst (j : ℕ) : (d.pool j).st = if j = 0 then .work else .idle := by
    split
    · rename_i hj
      exact (h.work j).mpr hj
    · rename_i hj
      exact h.idle j hj
  refine ⟨fun j => (waiting_task (h.waiting j)).mpr ?_, fun j hj => ?_, h.nthreads, ?_,
    ⟨0, hN, .inl ((h.work 0).mpr rfl)⟩, ?_, ?_, fun y _ => congrFun h.mem y⟩
  · by_cases hj : j = 0
    · subst hj
      exact .inr ⟨(h.work 0).mpr rfl, .inl h.given⟩
    · exact .inl (h.idle j hj)
  · rw [(h.work j).mp hj]
    exact hN
  · have hpoint (j : ℕ) : share (d.pool j).st (w j) = 1 + if j = 0 then -1 else 0 := by
      rw [hst]
      by_cases hj : j = 0
      · simp [hj, share_work, pending_waiting (h.waiting 0)]
      · simp [hj, share_idle, pending_waiting (h.waiting j)]
    have hsum := sum_point hN hpoint
    have hcount : d.idlethreads - 1 =
        ∑ j ∈ Finset.range x.maxthreads, share (d.pool j).st (w j) := by
      rw [hsum, h.idlethreads]
      simp
      omega
    exact hcount
  · exact parts_whole (Int.natCast_nonneg _) h.work h.part
  · simp only [h.mem]
    exact Shuffle.refl _ _ _

/-- A step of the first hand-out. -/
theorem Stage.hand {p : HandPc} {islot i : ℕ} {bailout : Bool}
    (h : Stage x m₀ d ⟨.hand p, islot, i, bailout⟩ w) (hbail : bailout = false)
    (hN : 0 < x.maxthreads)
    (he : Edge b (qsortMt x ⟨.hand p, islot, i, bailout⟩) d d' (.main l')) :
    Stage x m₀ d' l' w := by
  subst hbail
  cases p with
  | lock =>
    have hready : Ready x m₀ d ⟨.hand .lock, islot, i, false⟩ w := h
    obtain ⟨rfl, hk⟩ := he
    obtain rfl := Loc.main.inj hk
    exact ⟨hready.quiet, hready.nthreads, hready.idlethreads, by simp, by simp⟩
  | setA =>
    have hready : Ready x m₀ d ⟨.hand .setA, islot, i, false⟩ w := h
    obtain ⟨rfl, hk⟩ := edge_statement he
    obtain rfl := Loc.main.inj hk
    refine ⟨⟨hready.quiet.waiting, fun j => ?_, hready.quiet.mem⟩, hready.nthreads,
      hready.idlethreads, fun _ => by rw [setA_self], by simp⟩
    by_cases hj : j = 0
    · rw [hj, setA_self]
      exact hready.quiet.idle 0
    · rw [setA_of_ne hj]
      exact hready.quiet.idle j
  | setN =>
    have hready : Ready x m₀ d ⟨.hand .setN, islot, i, false⟩ w := h
    obtain ⟨rfl, hk⟩ := edge_statement he
    obtain rfl := Loc.main.inj hk
    refine ⟨⟨hready.quiet.waiting, fun j => ?_, hready.quiet.mem⟩, hready.nthreads,
      hready.idlethreads, fun _ => ?_, fun _ => by rw [setN_self]⟩
    · by_cases hj : j = 0
      · rw [hj, setN_self]
        exact hready.quiet.idle 0
      · rw [setN_of_ne hj]
        exact hready.quiet.idle j
    · rw [setN_self]
      exact hready.base (.inl rfl)
  | setSt =>
    have hready : Ready x m₀ d ⟨.hand .setSt, islot, i, false⟩ w := h
    obtain ⟨rfl, hk⟩ := edge_statement he
    obtain rfl := Loc.main.inj hk
    have hpool (j : ℕ) (hj : j ≠ 0) : (d.setSt 0 .work).pool j = d.pool j := setSt_of_ne _ hj
    have hidle (j : ℕ) (hj : j ≠ 0) : ((d.setSt 0 .work).pool j).st = .idle := by
      rw [hpool j hj]
      exact hready.quiet.idle j
    have hpart : Function.update d.part 0 (0, (x.n : ℤ)) 0 = (0, (x.n : ℤ)) :=
      Function.update_self ..
    refine ⟨hready.quiet.waiting, fun j => ?_, hidle, hpart, ?_, hready.nthreads,
      hready.idlethreads, hready.quiet.mem⟩
    · by_cases hj : j = 0
      · simp only [hj, iff_true]
        exact congrArg Slot.st (setSt_self _)
      · simp only [hj, iff_false]
        exact fun hw => by cases (hidle j hj).symm.trans hw
    · have ha : ((d.setSt 0 .work).pool 0).a = x.a := by
        rw [setSt_self]
        exact hready.base (.inr rfl)
      have hn : ((d.setSt 0 .work).pool 0).n = x.n := by
        rw [setSt_self]
        exact hready.length rfl
      unfold Given
      simp only [Function.update_self, mul_zero, add_zero, sub_zero]
      exact ⟨ha, hn⟩
  | count =>
    obtain ⟨rfl, hk⟩ := edge_statement he
    obtain rfl := Loc.main.inj hk
    exact .inl (Handed.open h hN)
  | signal =>
    obtain ⟨rfl, hk⟩ := he
    obtain rfl := Loc.main.inj hk
    exact h
  | unlock =>
    obtain ⟨rfl, hk⟩ := he
    obtain rfl := Loc.main.inj hk
    exact h.imp_left fun ho => ⟨ho, rfl, .inl rfl⟩

/-- What a change of other data leaves. -/
theorem Ending.of_pool {last : Option ℕ} (h : Ending x d w last) (hpool : d'.pool = d.pool)
    (hn : d'.nthreads = d.nthreads) (hc : d'.idlethreads = d.idlethreads) : Ending x d' w last := by
  refine ⟨fun i => Closing.keep (h.task i) fun k => .inl (by rw [hpool]),
    fun hl => hn.trans (h.nthreads hl), fun hl => hc.trans (h.count hl)⟩

/-- A step of `qsort_mt` that sends the threads away. -/
theorem Bailing.step (h : Bailing x m₀ d l w) (hbail : l.bailout = true)
    (hpc : l.pc = .joins ∨ (∃ p, l.pc = .bail p) ∨ l.pc = .join ∨ l.pc = .destroyMutex ∨
      l.pc = .destroyCond ∨ l.pc = .free ∨ l.pc = .destroyAl ∨ l.pc = .report)
    (he : Edge b (qsortMt x l) d d' (.main l')) : Stage x m₀ d' l' w := by
  obtain ⟨pc, islot, i, bailout⟩ := l
  simp only at hbail hpc
  subst hbail
  have hmem := h.mem
  have asked := h.asked
  simp only at asked
  have hsame {d' : Data B} (hpool : d'.pool = d.pool) (hn : d'.nthreads = d.nthreads)
      (hc : d'.idlethreads = d.idlethreads) : Ending x d' w none := h.ending.of_pool hpool hn hc
  rcases hpc with rfl | ⟨p, rfl⟩ | rfl | rfl | rfl | rfl | rfl | rfl
  · obtain ⟨rfl, hk⟩ := edge_statement he
    obtain rfl := Loc.main.inj hk
    by_cases hlt : i < islot
    · simp only [hlt, if_true]
      exact ⟨h.ending, hmem, by simp⟩
    · simp only [hlt, if_false]
      exact ⟨h.ending, hmem, by simp⟩
  · cases p with
    | lock =>
      obtain ⟨rfl, hk⟩ := he
      obtain rfl := Loc.main.inj hk
      exact ⟨h.ending, hmem, by simp⟩
    | set =>
      obtain ⟨rfl, hk⟩ := edge_statement he
      obtain rfl := Loc.main.inj hk
      refine ⟨⟨fun j => Closing.keep (h.ending.task j) fun k => ?_, fun hn => absurd rfl hn,
        fun hn => absurd rfl hn⟩, hmem, fun _ => by rw [setSt_self]⟩
      by_cases hk : k = i
      · subst hk
        exact .inr ⟨by rw [setSt_self], by simp⟩
      · exact .inl (by rw [setSt_of_ne _ hk])
    | signal =>
      obtain ⟨rfl, hk⟩ := he
      obtain rfl := Loc.main.inj hk
      exact ⟨h.ending, hmem, fun _ => asked (.inl rfl)⟩
    | unlock =>
      obtain ⟨rfl, hk⟩ := he
      obtain rfl := Loc.main.inj hk
      exact ⟨h.ending, hmem, fun _ => asked (.inr (.inl rfl))⟩
  · simp only [qsortMt, Edge] at he
    split at he <;> cases he
    exact ⟨hsame rfl rfl rfl, hmem, by simp⟩
  · obtain ⟨rfl, hk⟩ := edge_statement he
    obtain rfl := Loc.main.inj hk
    exact ⟨hsame rfl rfl rfl, hmem, by simp⟩
  · obtain ⟨rfl, hk⟩ := edge_statement he
    obtain rfl := Loc.main.inj hk
    exact ⟨hsame rfl rfl rfl, hmem, by simp⟩
  · obtain ⟨rfl, hk⟩ := edge_statement he
    obtain rfl := Loc.main.inj hk
    exact ⟨hsame rfl rfl rfl, hmem, by simp⟩
  · obtain ⟨rfl, hk⟩ := edge_statement he
    obtain rfl := Loc.main.inj hk
    exact ⟨hsame rfl rfl rfl, hmem, by simp⟩
  · obtain ⟨rfl, hk⟩ := edge_statement he
    obtain rfl := Loc.main.inj hk
    exact ⟨h.ending, hmem⟩

/-- A step of `qsort_mt` that waits for the threads: the first one is at its end only when there is
no work left. -/
theorem Stage.joining
    (h : (Open x m₀ d w ∧ l.i = 0 ∧ (l.pc = .joins ∨ l.pc = .join)) ∨ Ended x m₀ d w)
    (hbail : l.bailout = false) (hb : Bounds x first l) (hlife : Lifecycle d w)
    (hpc : l.pc = .joins ∨ l.pc = .join ∨ l.pc = .destroyMutex ∨
      l.pc = .destroyCond ∨ l.pc = .free ∨ l.pc = .destroyAl ∨ l.pc = .report)
    (he : Edge b (qsortMt x l) d d' (.main l')) : Stage x m₀ d' l' w := by
  obtain ⟨pc, islot, i, bailout⟩ := l
  obtain ⟨hislot, hb⟩ := hb
  simp only at hbail hpc hb hislot h
  subst hbail
  have hended (hp : pc ≠ .joins ∧ pc ≠ .join) : Ended x m₀ d w :=
    h.resolve_left fun ho => ho.2.2.elim hp.1 hp.2
  have hsame {d' : Data B} (hpool : d'.pool = d.pool) (hn : d'.nthreads = d.nthreads)
      (hc : d'.idlethreads = d.idlethreads) (hm : d'.mem = d.mem) (hd : Ended x m₀ d w) :
      Ended x m₀ d' w := by
    obtain ⟨last, hend, hres⟩ := hd
    exact ⟨last, hend.of_pool hpool hn hc, hm ▸ hres⟩
  rcases hpc with rfl | rfl | rfl | rfl | rfl | rfl | rfl
  · obtain ⟨rfl, hk⟩ := edge_statement he
    obtain rfl := Loc.main.inj hk
    by_cases hlt : i < islot
    · simp only [hlt, if_true]
      exact h.imp_left fun ho => ⟨ho.1, ho.2.1, .inr rfl⟩
    · simp only [hlt, if_false]
      refine .inr (h.resolve_left fun ho => hlt ?_)
      have hfin := hb.2.2 rfl
      simp only at hfin
      omega
  · simp only [qsortMt, Edge] at he
    split at he <;> cases he
    rename_i hexited
    refine .inr (hsame rfl rfl rfl rfl (h.resolve_left fun ho => ?_))
    have htask := ho.1.task i
    rw [(hlife.exited i).mp hexited] at htask
    exact htask
  · obtain ⟨rfl, hk⟩ := edge_statement he
    obtain rfl := Loc.main.inj hk
    exact .inr (hsame rfl rfl rfl rfl (hended (by simp)))
  · obtain ⟨rfl, hk⟩ := edge_statement he
    obtain rfl := Loc.main.inj hk
    exact .inr (hsame rfl rfl rfl rfl (hended (by simp)))
  · obtain ⟨rfl, hk⟩ := edge_statement he
    obtain rfl := Loc.main.inj hk
    exact .inr (hsame rfl rfl rfl rfl (hended (by simp)))
  · obtain ⟨rfl, hk⟩ := edge_statement he
    obtain rfl := Loc.main.inj hk
    exact .inr (hsame rfl rfl rfl rfl (hended (by simp)))
  · obtain ⟨rfl, hk⟩ := edge_statement he
    obtain rfl := Loc.main.inj hk
    obtain ⟨last, hend, hres⟩ := hended (by simp)
    exact ⟨some last, hend, hres⟩

/-- A step of `qsort_mt`. -/
theorem Stage.main (h : Stage x m₀ d l w) (hb : Bounds x first l) (hlife : Lifecycle d w)
    (hq : first ≠ none ∨ x.n < x.forkelem → ∀ m, Result x m (x.qsort m))
    (he : Edge b (qsortMt x l) d d' (.main l')) : Stage x m₀ d' l' w := by
  obtain ⟨pc, islot, i, bailout⟩ := l
  obtain ⟨hislot, hb⟩ := hb
  simp only at hislot hb
  cases pc with
  | start =>
    obtain ⟨rfl, hk⟩ := edge_statement he
    obtain rfl := Loc.main.inj hk
    have hquiet : Quiet m₀ d' w := h
    by_cases hn : x.n < x.forkelem
    · simp only [hn, if_true]
      exact ⟨hquiet.ending, hquiet.mem⟩
    · simp only [hn, if_false]
      exact hquiet
  | initAl =>
    have hquiet : Quiet m₀ d w := h
    cases b <;> cases he
    · exact ⟨hquiet.ending, hquiet.mem⟩
    · exact ⟨hquiet.waiting, hquiet.idle, hquiet.mem⟩
  | calloc =>
    have hquiet : Quiet m₀ d w := h
    obtain ⟨rfl, rfl⟩ := hb
    cases b <;> cases he
    · exact hquiet.bailing (.inr rfl)
    · exact ⟨hquiet.waiting, fun _ => rfl, hquiet.mem⟩
  | slots =>
    obtain ⟨rfl, hk⟩ := edge_statement he
    obtain rfl := Loc.main.inj hk
    by_cases hlt : islot < x.maxthreads
    · simp only [hlt, if_true]
      exact h
    · simp only [hlt, if_false]
      exact h
  | initMutex =>
    have hquiet : Quiet m₀ d w := h
    obtain ⟨rfl, -⟩ := hb
    cases b <;> cases he
    · exact hquiet.bailing (.inl rfl)
    · exact ⟨hquiet.waiting, hquiet.idle, hquiet.mem⟩
  | initCond =>
    have hquiet : Quiet m₀ d w := h
    cases b <;> cases he
    · exact hquiet
    · exact ⟨hquiet.waiting, hquiet.idle, hquiet.mem⟩
  | create =>
    have hquiet : Quiet m₀ d w := h
    cases b <;> cases he
    · exact hquiet
    · exact ⟨hquiet.waiting, hquiet.idle, hquiet.mem⟩
  | dropMutex | undoCond =>
    have hquiet : Quiet m₀ d w := h
    obtain ⟨rfl, -⟩ := hb
    obtain ⟨rfl, hk⟩ := edge_statement he
    obtain rfl := Loc.main.inj hk
    exact Quiet.bailing ⟨hquiet.waiting, hquiet.idle, hquiet.mem⟩ (.inl rfl)
  | undoMutex =>
    have hquiet : Quiet m₀ d w := h
    obtain ⟨rfl, hk⟩ := edge_statement he
    obtain rfl := Loc.main.inj hk
    exact ⟨hquiet.waiting, hquiet.idle, hquiet.mem⟩
  | setIdle =>
    obtain ⟨rfl, hk⟩ := edge_statement he
    obtain rfl := Loc.main.inj hk
    exact Quiet.setSt h islot
  | common =>
    have hquiet : Quiet m₀ d w := h
    obtain ⟨rfl, hk⟩ := edge_statement he
    obtain rfl := Loc.main.inj hk
    exact ⟨⟨hquiet.waiting, hquiet.idle, hquiet.mem⟩, rfl, rfl, by simp, by simp⟩
  | hand p => exact h.hand hb.1 hb.2.2 he
  | bail p =>
    obtain ⟨-, rfl, -⟩ := hb
    exact Bailing.step h rfl (.inr (.inl ⟨p, rfl⟩)) he
  | joins | join | destroyMutex | destroyCond | free | destroyAl | report =>
    cases bailout with
    | true => exact Bailing.step h rfl (by simp) he
    | false => exact Stage.joining h rfl ⟨hislot, hb⟩ hlife (by simp) he
  | qsort =>
    obtain ⟨hend, hmem⟩ := h
    obtain ⟨rfl, hk⟩ := edge_statement he
    obtain rfl := Loc.main.inj hk
    refine ⟨none, ⟨hend.task, hend.nthreads, hend.count⟩, ?_⟩
    simp only [hmem]
    exact hq hb.2 m₀
  | done => exact he.elim

end Main

section Reachable
variable {B : Type} {x : Args B} {m₀ : ℤ → B} {first : Option Resource} {l : MainLoc}
  {w : ℕ → WorkerPc} {i j : ℕ} {t : Thread} {k : Loc} {m : Mutex}
  {s : Config Thread (Shared Thread Mutex (Data B)) (Status Mutex Loc)}

/-! ### Reachable states -/

/-- Only the threads wait, each of them for its own condition variable. -/
theorem wait_instr (h : instr x t k = .wait m k') :
    ∃ u, t = .worker u ∧ k = .worker (.wait .cond) ∧ m = .st u ∧ k' = .worker (.wait .test) := by
  cases t with
  | main =>
    cases k with
    | main l =>
      obtain ⟨pc, islot, i, bailout⟩ := l
      cases pc with
      | hand p => cases p <;> cases h
      | bail p => cases p <;> cases h
      | _ => cases h
    | worker pc => cases h
  | worker u =>
    cases k with
    | main l => cases h
    | worker pc =>
      cases pc with
      | wait p =>
        cases p with
        | cond =>
          cases h
          exact ⟨u, rfl, rfl, rfl, rfl⟩
        | _ => cases h
      | sort t =>
        rcases t with _ | ⟨o, k⟩ | _
        · cases h
        · cases o <;> cases h
        · cases h
      | alloc p => cases p <;> cases h
      | finish p => cases p <;> cases h
      | term p => cases p <;> cases h
      | _ => cases h

variable (h : (system x m₀).Reachable (failsAt first) s)
include h

theorem resumes_reachable : ∀ t m k, s.thread t = .asleep m k ∨ s.thread t = .woken m k →
    ∃ u, t = .worker u ∧ m = .st u ∧ k = .worker (.wait .test) :=
  resume_rule (P := pool x) (fun _ _ _ _ hi => by
    obtain ⟨u, ht, -, hm, hk⟩ := wait_instr hi
    exact ⟨u, ht, hm, hk⟩) h

theorem main_running (hlocs : Program.locs s = places l w) : s.thread .main = .run (.main l) := by
  have hl : (s.thread .main).loc = .main l := congrFun hlocs .main
  cases hst : s.thread .main with
  | run k =>
    rw [hst] at hl
    exact congrArg Status.run hl
  | asleep m k =>
    obtain ⟨u, hu, -⟩ := resumes_reachable h _ _ _ (.inl hst)
    cases hu
  | woken m k =>
    obtain ⟨u, hu, -⟩ := resumes_reachable h _ _ _ (.inr hst)
    cases hu

/-- Who has a mutex at a place, unless it waits for it. -/
theorem owns_of_holds (hlocs : Program.locs s = places l w) (hm : holds t (places l w t) m) :
    (pool x).Owns t (s.thread t) m ∨ ∃ u, t = .worker u ∧ w u = .wait .test ∧ m = .st u := by
  rw [← hlocs] at hm
  have resume (m' : Mutex) (k : Loc) (hst : s.thread t = .asleep m' k ∨ s.thread t = .woken m' k)
      (hne : m = m') : ∃ u, t = .worker u ∧ w u = .wait .test ∧ m = .st u := by
    obtain ⟨u, rfl, rfl, rfl⟩ := resumes_reachable h t m' k hst
    have hl := congrFun hlocs (.worker u)
    refine ⟨u, rfl, Loc.worker.inj (Eq.trans hl.symm ?_), hne⟩
    rcases hst with hst | hst <;> simp [Program.locs, hst, Status.loc]
  cases hst : s.thread t with
  | run k =>
    rw [Program.locs, hst] at hm
    exact .inl hm
  | asleep m' k =>
    rw [Program.locs, hst] at hm
    by_cases hne : m = m'
    · exact .inr (resume m' k (.inl hst) hne)
    · exact .inl ⟨hm, hne⟩
  | woken m' k =>
    rw [Program.locs, hst] at hm
    by_cases hne : m = m'
    · exact .inr (resume m' k (.inr hst) hne)
    · exact .inl ⟨hm, hne⟩

/-- A running thread has its mutexes for itself. -/
theorem excl_reachable (hlocs : Program.locs s = places l w)
    (hi : s.thread (.worker i) = .run (.worker (w i))) : Excl w i := by
  intro u m hui hmi hmu
  have howns : (pool x).Owns (.worker i) (s.thread (.worker i)) m := by
    rw [hi]
    exact hmi
  rcases owns_of_holds h hlocs (t := .worker u) hmu with hu | ⟨v, hv, hpc, hm⟩
  · exact absurd (Thread.worker.inj ((sound_reachable h).unique hu howns)) hui
  · obtain rfl := Thread.worker.inj hv
    exact ⟨hpc, hm⟩

omit h in
/-- What holds in every reachable state, where `qsort` of the C library sorts if it is needed. -/
theorem stage_reachable (hx : x.Valid)
    (hsize : x.maxthreads = 0 → first = some .mtxAl ∨ first = some .pool)
    (hq : first ≠ none ∨ x.n < x.forkelem → ∀ m, Result x m (x.qsort m))
    (h : (system x m₀).Reachable (failsAt first) s) :
    ∃ l w, Program.locs s = places l w ∧ Account first l s.shared.data ∧ Bounds x first l ∧
      Lifecycle s.shared.data w ∧ Stage x m₀ s.shared.data l w := by
  have known {s : Config Thread (Shared Thread Mutex (Data B)) (Status Mutex Loc)} {l : MainLoc}
      {w : ℕ → WorkerPc} (hr : (system x m₀).Reachable (failsAt first) s)
      (hlocs : Program.locs s = places l w) : Account first l s.shared.data ∧ Bounds x first l ∧
        Lifecycle s.shared.data w := by
    obtain ⟨l', w', hlocs', hmain⟩ := main_reachable hsize hr
    obtain ⟨rfl, rfl⟩ := places_inj (hlocs.symm.trans hlocs')
    exact hmain
  have hinv : ∃ l w, Program.locs s = places l w ∧ Stage x m₀ s.shared.data l w := by
    refine pool_invariant ?_ ?_ ?_ h
    · exact ⟨fun _ => trivial, fun _ => rfl, rfl⟩
    · intro s l w b d' l' hr hlocs hi _ _ he
      obtain ⟨-, hbounds, hlife⟩ := known hr hlocs
      exact hi.main hbounds hlife hq he
    · intro s l w i b d' pc' hr hlocs hi hrun he
      obtain ⟨haccount, hbounds, hlife⟩ := known hr hlocs
      refine Stage.worker hx hi (excl_reachable hr hlocs hrun)
        (slot_lt haccount hbounds (hlife.acquired he)) (fun hpc hi0 hpc' => ?_) he
      -- `qsort_mt` has the mutex of the first thread
      subst hi0
      have hmain : (pool x).Owns .main (s.thread .main) (.st 0) := by
        rw [main_running hr hlocs]
        obtain ⟨pc, islot, i, bailout⟩ := l
        simp only at hpc
        subst hpc
        exact ⟨by simp, rfl⟩
      have hworker : (pool x).Owns (.worker 0) (s.thread (.worker 0)) (.st 0) := by
        rw [hrun, hpc']
        exact ⟨by simp, rfl⟩
      cases (sound_reachable hr).unique hmain hworker
  obtain ⟨l, w, hlocs, hstage⟩ := hinv
  obtain ⟨haccount, hbounds, hlife⟩ := known h hlocs
  exact ⟨l, w, hlocs, haccount, hbounds, hlife, hstage⟩

end Reachable

end LinuxSummer.Pool
