import LinuxSummer.PoolOpen

/-! The steps of the pool threads: those while there is work to do, and those after the last thread
has found out that none is left, or after the initialisation has failed. -/
namespace LinuxSummer.Pool
open Monitor Qsort
set_option linter.unusedSectionVars false

section Ending
variable {B : Type} (x : Args B) (d : Data B) (w : ℕ → WorkerPc) (last : Option ℕ)

/-- The threads before `j`, but for `i`, are asked to terminate. -/
def Told (i j : ℕ) : Prop := ∀ k, k < j → k ≠ i → (d.pool k).st = .term

/-- Where the thread `i` may be when there is no work left: `last` is the thread that has found out,
if there is one. -/
def Closing (i : ℕ) : WorkerPc → Prop
  | .start | .wait .lock | .wait .test | .wait .cond =>
    last ≠ some i ∧ ((d.pool i).st = .idle ∨ (d.pool i).st = .term)
  | .wait .unlock | .check => last ≠ some i ∧ (d.pool i).st = .term
  | .last j => last = some i ∧ (d.pool i).st = .idle ∧ Told d i j
  | .term p j => last = some i ∧ (d.pool i).st = .idle ∧ Told d i j ∧ j ≠ i ∧ j < x.maxthreads ∧
      (p = .signal ∨ p = .unlock → (d.pool j).st = .term)
  | .lastUnlock => last = some i ∧ (d.pool i).st = .idle ∧ Told d i x.maxthreads
  | .leave | .done => (last ≠ some i ∧ (d.pool i).st = .term) ∨
      (last = some i ∧ (d.pool i).st = .idle ∧ Told d i x.maxthreads)
  | _ => False

/-- The pool when there is no work left. -/
structure Ending : Prop where
  task : ∀ i, Closing x d last i (w i)
  nthreads : last ≠ none → d.nthreads = x.maxthreads
  count : last ≠ none → d.idlethreads = x.maxthreads

end Ending

/-- The array when it is sorted. -/
structure Result {B : Type} (x : Args B) (m₀ m : ℤ → B) : Prop where
  sorted : Sorted x.le 0 x.n (x.array m)
  shuffle : Shuffle 0 x.n (x.array m₀) (x.array m)
  frame : ∀ y, ¬ (x.a ≤ y ∧ y < x.a + x.es * x.n) → m y = m₀ y

section Steps
variable {B : Type} {x : Args B} {m₀ : ℤ → B} {d d' : Data B} {w w' : ℕ → WorkerPc} {i j u : ℕ}
  {pc pc' : WorkerPc} {a n : ℤ} {p : AllocPc} {k : Bool → SortProg Unit} {b : Bool} {l l' : Loc}
  {last : Option ℕ}

attribute [local simp] HandsOver AllocPc.Fills

theorem edge_statement {f : Data B → Data B × Loc} (h : Edge b (statement f) d d' l) :
    d' = (f d).1 ∧ l = (f d).2 := by
  have he : f d = (d', l) := Option.some.inj h
  rw [he]
  exact ⟨rfl, rfl⟩

theorem closing_waiting (hpc : Waiting pc) (hlast : last ≠ some i)
    (hst : (d.pool i).st = .idle ∨ (d.pool i).st = .term) : Closing x d last i pc := by
  cases pc with
  | start => exact ⟨hlast, hst⟩
  | wait p =>
    cases p with
    | unlock => exact hpc.elim
    | _ => exact ⟨hlast, hst⟩
  | _ => exact hpc.elim

/-! ### While there is work to do -/

/-- A thread goes on without changing anything. -/
theorem Open.go (h : Open x m₀ d w) (hi : i < x.maxthreads) (hpc : w i = pc)
    (htask : Task x d w i pc → Task x d w i pc') (hpend : pending pc' = pending pc)
    (hhands : ∀ j, HandsOver j pc ↔ HandsOver j pc')
    (hwait : Waiting pc → Waiting pc' ∨ ∀ u, ¬ HandsOver i (w u))
    (halive : pc ≠ .finish .count ∧ pc ≠ .finish .test) :
    Open x m₀ d (Function.update w i pc') := by
  subst hpc
  have hmove := h.move (c := d.idlethreads) hi (htask (h.task i)) (by simp [share, hpend]) hhands
    (fun ⟨u, hu⟩ hw => (hwait hw).resolve_right fun hno => hno u hu)
    fun hfin => (hfin.elim halive.1 halive.2).elim
  exact hmove

theorem Task.st_cases (h : Task x d w i pc) : (d.pool i).st = .idle ∨ (d.pool i).st = .work := by
  cases pc with
  | start => exact h.imp_right And.left
  | wait p =>
    cases p with
    | unlock => exact .inr h.1
    | _ => exact h.imp_right And.left
  | check | assert | load | sort | alloc => exact .inr h.1
  | finish p =>
    cases p with
    | setIdle => exact .inr h.1
    | _ => exact .inl h
  | last | term | lastUnlock | leave | done | aborted => exact h.elim

theorem pending_waiting (hpc : Waiting pc) : pending pc = 0 := by
  cases pc with
  | start | wait => rfl
  | _ => exact hpc.elim

theorem share_le (st : ThreadState) (pc : WorkerPc) : share st pc ≤ 1 := by
  have hpend : 0 ≤ pending pc := by
    unfold pending
    split <;> omega
  unfold share
  split <;> omega

/-- When all threads count as idle nobody works. -/
theorem Open.none_works (h : Open x m₀ d w) (hall : d.idlethreads = d.nthreads) (j : ℕ) :
    (d.pool j).st ≠ .work := by
  intro hwork
  have hj := h.inside j hwork
  have hsum : ∑ k ∈ Finset.range x.maxthreads, share (d.pool k).st (w k) <
      ∑ k ∈ Finset.range x.maxthreads, (1 : ℤ) := by
    refine Finset.sum_lt_sum (fun k _ => share_le _ _) ⟨j, Finset.mem_range.mpr hj, ?_⟩
    have hpend : 0 ≤ pending (w j) := by
      unfold pending
      split <;> omega
    rw [hwork, share_work]
    omega
  rw [← h.count, hall, h.nthreads] at hsum
  simp at hsum

/-- When nobody works all threads count as idle, as long as one holds `mtx_al`. -/
theorem Open.all_idle (h : Open x m₀ d w) (hex : Excl w i) (hpc : w i = .finish .test)
    (hnone : ∀ j < x.maxthreads, (d.pool j).st ≠ .work) : d.idlethreads = d.nthreads := by
  have hal : holds (.worker i) (.worker (w i)) .al := by
    rw [hpc]
    exact rfl
  have hone (j : ℕ) (hj : j ∈ Finset.range x.maxthreads) : share (d.pool j).st (w j) = 1 := by
    have hst := hnone j (Finset.mem_range.mp hj)
    have hidle := (Task.st_cases (h.task j)).resolve_right hst
    rw [hidle, share_idle]
    by_cases hji : j = i
    · rw [hji, hpc]
      rfl
    · have hwait := (Task.idle_cases (h.task j) hidle).resolve_right (hex.not_al hal hji)
      rw [pending_waiting hwait]
      rfl
  rw [h.count, h.nthreads, Finset.sum_congr rfl hone]
  simp

/-- The last thread finds that all threads are idle. -/
theorem Open.ending (h : Open x m₀ d w) (hex : Excl w i) (hpc : w i = .finish .test)
    (hall : d.idlethreads = d.nthreads) :
    Ending x d (Function.update w i (.last 0)) (some i) ∧ Result x m₀ d.mem := by
  have hnone := h.none_works hall
  have hidle (j : ℕ) : (d.pool j).st = .idle :=
    (Task.st_cases (h.task j)).resolve_right (hnone j)
  have hal : holds (.worker i) (.worker (w i)) .al := by
    rw [hpc]
    exact rfl
  refine ⟨⟨fun j => ?_, fun _ => h.nthreads, fun _ => hall.trans h.nthreads⟩,
    h.parts.sorted hnone, h.shuffle, h.frame⟩
  by_cases hj : j = i
  · subst hj
    rw [Function.update_self]
    exact ⟨rfl, hidle j, fun k hk => absurd hk (Nat.not_lt_zero k)⟩
  · rw [Function.update_of_ne hj]
    have hwait := (Task.idle_cases (h.task j) (hidle j)).resolve_right (hex.not_al hal hj)
    exact closing_waiting hwait (fun he => hj (Option.some.inj he).symm) (.inl (hidle j))

/-- While a thread has its own mutex nobody tells it what to sort. -/
theorem Excl.not_told (hex : Excl w i) (hpc : w i = .wait .test) (u : ℕ) : ¬ HandsOver i (w u) := by
  have hheld : holds (.worker i) (.worker (w i)) (.st i) := by
    rw [hpc]
    exact ⟨by simp, rfl⟩
  by_cases hui : u = i
  · subst hui
    rw [hpc]
    exact id
  · exact hex.not_handsOver hheld hui

/-- The steps of the wait for work. -/
theorem Open.wait_step (h : Open x m₀ d w) (hex : Excl w i) (hi : i < x.maxthreads) {p : WaitPc}
    (hpc : w i = .wait p) (he : Edge b (waitForWork i p) d d' l) :
    ∃ pc', l = .worker pc' ∧ Open x m₀ d' (Function.update w i pc') := by
  cases p with
  | lock =>
    obtain ⟨rfl, rfl⟩ := he
    exact ⟨_, rfl, h.go hi hpc id rfl (fun _ => Iff.rfl) (fun _ => .inl trivial) (by simp)⟩
  | cond =>
    obtain ⟨rfl, rfl⟩ := he
    exact ⟨_, rfl, h.go hi hpc id rfl (fun _ => Iff.rfl) (fun _ => .inl trivial) (by simp)⟩
  | unlock =>
    obtain ⟨rfl, rfl⟩ := he
    exact ⟨_, rfl, h.go hi hpc id rfl (fun _ => Iff.rfl) (fun hw => hw.elim) (by simp)⟩
  | test =>
    obtain ⟨rfl, rfl⟩ := edge_statement he
    refine ⟨_, rfl, ?_⟩
    split
    · exact h.go hi hpc id rfl (fun _ => Iff.rfl) (fun _ => .inl trivial) (by simp)
    · rename_i hst
      refine h.go hi hpc (fun ht => ?_) rfl (fun _ => Iff.rfl) (fun _ => .inr (hex.not_told hpc))
        (by simp)
      obtain hidle | ⟨hwork, hg⟩ := (waiting_task (by trivial)).mp ht
      · exact absurd hidle hst
      · exact ⟨hwork, hg.resolve_right fun ⟨u, hu⟩ => hex.not_told hpc u hu⟩

/-- The steps of `allocate_thread`. -/
theorem Open.alloc_step (hx : x.Valid) (h : Open x m₀ d w) (hex : Excl w i)
    (hpc : w i = .alloc p j a n k) (he : Edge b (allocate x i j a n k p) d d' l) :
    ∃ pc', l = .worker pc' ∧ Open x m₀ d' (Function.update w i pc') := by
  obtain ⟨hwork, hsorts, hj, hfound⟩ := h.task_at hpc
  have hi := h.inside i hwork
  have hnot : ¬ Waiting (w i) := by
    rw [hpc]
    exact id
  have hfree (hst : holds (.worker i) (.worker (w i)) (.st j)) (u : ℕ) (hu : u ≠ i) :
      ¬ HandsOver j (w u) := hex.not_handsOver hst hu
  have honly (l : ℕ) (hl : HandsOver l (w i)) : l = j := by
    rw [hpc] at hl
    exact hl.2.symm
  have hmine (hchosen : Chosen x d w j a n) : j ≠ i := by
    rintro rfl
    exact hnot hchosen.waiting
  cases p with
  | loop =>
    obtain ⟨rfl, rfl⟩ := edge_statement he
    refine ⟨_, rfl, ?_⟩
    split
    · rename_i hlt
      have hj' : j < x.maxthreads := by
        rw [h.nthreads] at hlt
        exact_mod_cast hlt
      exact h.go hi hpc (fun _ => ⟨hwork, hsorts, hj', trivial⟩) rfl
        (fun _ => by simp [HandsOver, AllocPc.Fills]) (fun hw => hw.elim) (by simp)
    · obtain ⟨lo, -, -, -, -, -, hrest, -⟩ := hsorts.allocate
      exact h.go hi hpc (fun _ => ⟨hwork, hrest, trivial, trivial⟩) rfl
        (fun _ => by simp [HandsOver, AllocPc.Fills]) (fun hw => hw.elim) (by simp)
  | test =>
    obtain ⟨rfl, rfl⟩ := edge_statement he
    refine ⟨_, rfl, ?_⟩
    split
    · rename_i hidle
      exact h.go hi hpc (fun _ => ⟨hwork, hsorts, hj, hidle⟩) rfl
        (fun _ => by simp [HandsOver, AllocPc.Fills]) (fun hw => hw.elim) (by simp)
    · exact h.go hi hpc (fun _ => ⟨hwork, hsorts, trivial, trivial⟩) rfl
        (fun _ => by simp [HandsOver, AllocPc.Fills]) (fun hw => hw.elim) (by simp)
  | decr =>
    obtain ⟨rfl, rfl⟩ := edge_statement he
    refine ⟨_, rfl, h.move hi ⟨hwork, hsorts, hj, hfound⟩ ?_ ?_ ?_ ?_⟩
    · rw [hpc, hwork, share_work, share_work]
      simp [pending]
      omega
    · simp [hpc, HandsOver, AllocPc.Fills]
    · rw [hpc]
      exact fun _ hw => hw.elim
    · simp [hpc]
  | lockSt =>
    obtain ⟨rfl, rfl⟩ := he
    exact ⟨_, rfl, h.go hi hpc (fun _ => ⟨hwork, hsorts, hj, hfound⟩) rfl
      (fun _ => by simp [HandsOver, AllocPc.Fills]) (fun hw => hw.elim) (by simp)⟩
  | setWork =>
    obtain ⟨rfl, rfl⟩ := edge_statement he
    exact ⟨_, rfl, h.setWork hx hex hpc⟩
  | unlockAl =>
    obtain ⟨rfl, rfl⟩ := he
    exact ⟨_, rfl, h.go hi hpc (fun _ => ⟨hwork, hsorts, hj, hfound⟩) rfl
      (fun _ => by simp [HandsOver, AllocPc.Fills]) (fun hw => hw.elim) (by simp)⟩
  | setA =>
    obtain ⟨rfl, rfl⟩ := edge_statement he
    have hchosen : Chosen x d w j a n := hfound
    have hji := hmine hchosen
    have hset : ((d.setA j a).pool j).st = (d.pool j).st := by rw [setA_self]
    have hnext : Chosen x (d.setA j a) (Function.update w i (.alloc .setN j a n k)) j a n := by
      refine hchosen.keep hset rfl ?_
      rw [Function.update_of_ne hji]
      exact hchosen.waiting
    refine ⟨_, rfl, h.fill hwork hchosen hnot (hfree (by rw [hpc]; exact rfl)) honly
      (by rw [hpc]; rfl) (fun l hl => setA_of_ne hl) hset (.inl ⟨trivial, rfl⟩)
      ⟨?_, hsorts, hj, hnext, ?_⟩⟩
    · exact (congrArg Slot.st (setA_of_ne hji.symm)).trans hwork
    · exact congrArg Slot.a setA_self
  | setN =>
    obtain ⟨rfl, rfl⟩ := edge_statement he
    obtain ⟨hchosen, ha⟩ := hfound
    have hji := hmine hchosen
    have hset : ((d.setN j n).pool j).st = (d.pool j).st := by rw [setN_self]
    have hgiven : Given x (d.setN j n) j := by
      unfold Given
      rw [setN_self]
      exact ⟨ha.trans hchosen.base, hchosen.length⟩
    refine ⟨_, rfl, h.fill hwork hchosen hnot (hfree (by rw [hpc]; exact rfl)) honly
      (by rw [hpc]; rfl) (fun l hl => setN_of_ne hl) hset (.inr hgiven) ⟨?_, hsorts, hj, trivial⟩⟩
    exact (congrArg Slot.st (setN_of_ne hji.symm)).trans hwork
  | signal =>
    obtain ⟨rfl, rfl⟩ := he
    exact ⟨_, rfl, h.go hi hpc (fun _ => ⟨hwork, hsorts, hj, hfound⟩) rfl
      (fun _ => by simp [HandsOver, AllocPc.Fills]) (fun hw => hw.elim) (by simp)⟩
  | unlockSt =>
    obtain ⟨rfl, rfl⟩ := he
    exact ⟨_, rfl, h.go hi hpc (fun _ => ⟨hwork, hsorts⟩) rfl
      (fun _ => by simp [HandsOver, AllocPc.Fills]) (fun hw => hw.elim) (by simp)⟩
  | fail =>
    obtain ⟨rfl, rfl⟩ := he
    exact ⟨_, rfl, h.go hi hpc (fun _ => ⟨hwork, hsorts⟩) rfl
      (fun _ => by simp [HandsOver, AllocPc.Fills]) (fun hw => hw.elim) (by simp)⟩

/-- The steps within `qsort_algo`. -/
theorem Open.sort_step (hx : x.Valid) (h : Open x m₀ d w) {t : SortProg Unit} (hpc : w i = .sort t)
    (he : Edge b (sortStep x t) d d' l) :
    ∃ pc', l = .worker pc' ∧ Open x m₀ d' (Function.update w i pc') := by
  obtain ⟨hwork, hsorts⟩ := h.task_at hpc
  have hi := h.inside i hwork
  rcases t with _ | ⟨o, k⟩ | _
  · obtain ⟨rfl, rfl⟩ := he
    exact ⟨_, rfl, h.go hi hpc (fun _ => ⟨hwork, hsorts.ret⟩) rfl (fun _ => Iff.rfl)
      (fun hw => hw.elim) (by simp)⟩
  · cases o with
    | allocate a n =>
      obtain ⟨rfl, rfl⟩ := he
      exact ⟨_, rfl, h.go hi hpc (fun _ => ⟨hwork, hsorts, trivial, trivial⟩) rfl
        (fun _ => by simp [HandsOver, AllocPc.Fills]) (fun hw => hw.elim) (by simp)⟩
    | _ =>
      obtain ⟨rfl, rfl⟩ := edge_statement he
      exact ⟨_, rfl, h.call hx hpc⟩
  · exact hsorts.not_stuck.elim

/-- The steps after `qsort_algo`. -/
theorem Open.finish_step (h : Open x m₀ d w) (hex : Excl w i) (hi : i < x.maxthreads) {p : FinishPc}
    (hpc : w i = .finish p) (he : Edge b (finish i p) d d' l) :
    ∃ pc', l = .worker pc' ∧ (Open x m₀ d' (Function.update w i pc') ∨
      Ending x d' (Function.update w i pc') (some i) ∧ Result x m₀ d'.mem) := by
  have htask := h.task_at hpc
  cases p with
  | setIdle =>
    obtain ⟨rfl, rfl⟩ := edge_statement he
    exact ⟨_, rfl, .inl (h.setIdle hex hpc)⟩
  | count =>
    obtain ⟨rfl, rfl⟩ := edge_statement he
    have hidle : (d.pool i).st = .idle := htask
    refine ⟨_, rfl, .inl (h.move hi hidle ?_ ?_ ?_ fun _ => .inl rfl)⟩
    · rw [hpc, hidle, share_idle, share_idle]
      simp [pending]
    · simp [hpc, HandsOver]
    · rw [hpc]
      exact fun _ hw => hw.elim
  | test =>
    obtain ⟨rfl, rfl⟩ := edge_statement he
    refine ⟨_, rfl, ?_⟩
    split
    · rename_i hall
      exact .inr (h.ending hex hpc hall)
    · rename_i hsome
      refine .inl (h.move (c := d'.idlethreads) hi htask ?_ ?_ ?_ fun _ => .inr ?_)
      · rw [hpc]
        simp [share, pending]
      · simp [hpc, HandsOver]
      · rw [hpc]
        exact fun _ hw => hw.elim
      · by_contra hnone
        refine hsome (h.all_idle hex hpc fun j hj => ?_)
        exact fun hwork => hnone ⟨j, hj, hwork⟩
  | unlock =>
    obtain ⟨rfl, rfl⟩ := he
    exact ⟨_, rfl, .inl (h.go hi hpc (fun _ => .inl htask) rfl (fun _ => Iff.rfl)
      (fun hw => hw.elim) (by simp))⟩

/-- A step of a thread while there is work to do. -/
theorem Open.step (hx : x.Valid) (h : Open x m₀ d w) (hex : Excl w i) (hi : i < x.maxthreads)
    (he : Edge b (qsortThread x i (w i)) d d' l) :
    ∃ pc', l = .worker pc' ∧ (Open x m₀ d' (Function.update w i pc') ∨
      Ending x d' (Function.update w i pc') (some i) ∧ Result x m₀ d'.mem) := by
  have going (hopen : ∃ pc', l = .worker pc' ∧ Open x m₀ d' (Function.update w i pc')) :
      ∃ pc', l = .worker pc' ∧ (Open x m₀ d' (Function.update w i pc') ∨
        Ending x d' (Function.update w i pc') (some i) ∧ Result x m₀ d'.mem) := by
    obtain ⟨pc', hl, ho⟩ := hopen
    exact ⟨pc', hl, .inl ho⟩
  have htask := h.task i
  cases hpc : w i with
  | start =>
    rw [hpc] at he
    refine going ?_
    simp only [qsortThread, Edge] at he
    split at he <;> cases he
    exact ⟨_, rfl, h.go hi hpc id rfl (fun _ => Iff.rfl) (fun _ => .inl trivial) (by simp)⟩
  | wait p =>
    rw [hpc] at he
    exact going (h.wait_step hex hi hpc he)
  | check =>
    rw [hpc] at he htask
    obtain ⟨rfl, rfl⟩ := edge_statement he
    refine going ⟨_, rfl, ?_⟩
    rw [if_neg (by rw [htask.1]; simp)]
    exact h.go hi hpc id rfl (fun _ => Iff.rfl) (fun hw => hw.elim) (by simp)
  | assert =>
    rw [hpc] at he htask
    obtain ⟨rfl, rfl⟩ := edge_statement he
    refine going ⟨_, rfl, ?_⟩
    rw [if_pos htask.1]
    exact h.go hi hpc id rfl (fun _ => Iff.rfl) (fun hw => hw.elim) (by simp)
  | load =>
    rw [hpc] at he htask
    obtain ⟨rfl, rfl⟩ := edge_statement he
    obtain ⟨hwork, ha, hn⟩ := htask
    have hbounds := h.parts.bounds i hwork
    refine going ⟨_, rfl, h.go hi hpc (fun _ => ⟨hwork, ?_⟩) rfl (fun _ => Iff.rfl)
      (fun hw => hw.elim) (by simp)⟩
    rw [ha, hn]
    exact sorts_start hx hbounds.1 hbounds.2.1 hbounds.2.2
  | sort t =>
    rw [hpc] at he
    exact going (h.sort_step hx hpc he)
  | alloc p j a n k =>
    rw [hpc] at he
    exact going (h.alloc_step hx hex hpc he)
  | finish p =>
    rw [hpc] at he
    exact h.finish_step hex hi hpc he
  | last | term | lastUnlock | leave | done | aborted =>
    rw [hpc] at htask
    exact htask.elim

/-! ### When there is no work left -/

/-- The place of a thread stays a right one when others are asked to terminate. -/
theorem Closing.keep (h : Closing x d last i pc) (hst : ∀ k, (d'.pool k).st = (d.pool k).st ∨
    (d'.pool k).st = .term ∧ last ≠ some k) : Closing x d' last i pc := by
  have term (k : ℕ) (hk : (d.pool k).st = .term) : (d'.pool k).st = .term := by
    rcases hst k with hs | hs
    · exact hs.trans hk
    · exact hs.1
  have idle (hl : last = some i) (hi : (d.pool i).st = .idle) : (d'.pool i).st = .idle := by
    rcases hst i with hs | hs
    · exact hs.trans hi
    · exact absurd hl hs.2
  have told (j : ℕ) (hj : Told d i j) : Told d' i j := fun k hk hki => term k (hj k hk hki)
  have waiting (h : last ≠ some i ∧ ((d.pool i).st = .idle ∨ (d.pool i).st = .term)) :
      last ≠ some i ∧ ((d'.pool i).st = .idle ∨ (d'.pool i).st = .term) := by
    refine ⟨h.1, ?_⟩
    rcases hst i with hs | hs
    · rw [hs]
      exact h.2
    · exact .inr hs.1
  cases pc with
  | start => exact waiting h
  | wait p =>
    cases p with
    | unlock => exact ⟨h.1, term i h.2⟩
    | _ => exact waiting h
  | check => exact ⟨h.1, term i h.2⟩
  | last j => exact ⟨h.1, idle h.1 h.2.1, told j h.2.2⟩
  | term p j =>
    obtain ⟨hl, hi, hj, hji, hjN, hp⟩ := h
    exact ⟨hl, idle hl hi, told j hj, hji, hjN, fun hp' => term j (hp hp')⟩
  | lastUnlock => exact ⟨h.1, idle h.1 h.2.1, told _ h.2.2⟩
  | leave | done =>
    refine h.imp (fun h => ⟨h.1, term i h.2⟩) fun h => ⟨h.1, idle h.1 h.2.1, told _ h.2.2⟩
  | assert | load | sort | alloc | finish | aborted => exact h.elim

/-- A thread goes on, and at most asks another one to terminate. -/
theorem Ending.go (h : Ending x d w last) (htask : Closing x d' last i pc')
    (hst : ∀ k, (d'.pool k).st = (d.pool k).st ∨ (d'.pool k).st = .term ∧ last ≠ some k)
    (hn : d'.nthreads = d.nthreads) (hc : d'.idlethreads = d.idlethreads) :
    Ending x d' (Function.update w i pc') last := by
  refine ⟨fun j => ?_, fun hl => hn.trans (h.nthreads hl), fun hl => hc.trans (h.count hl)⟩
  by_cases hj : j = i
  · subst hj
    rw [Function.update_self]
    exact htask
  · rw [Function.update_of_ne hj]
    exact Closing.keep (h.task j) hst

/-- What a step of a thread leaves alone when there is no work left. -/
structure Settled (d d' : Data B) : Prop where
  mem : d'.mem = d.mem
  term : ∀ k, (d.pool k).st = .term → (d'.pool k).st = .term

theorem Settled.refl (d : Data B) : Settled d d := ⟨rfl, fun _ hk => hk⟩

/-- A step of a thread when there is no work left. -/
theorem Ending.step (h : Ending x d w last) (he : Edge b (qsortThread x i (w i)) d d' l) :
    ∃ pc', l = .worker pc' ∧ Ending x d' (Function.update w i pc') last ∧ Settled d d' := by
  have going {pc' : WorkerPc} (hd : d' = d) (hl : l = .worker pc') (htask : Closing x d last i pc') :
      ∃ pc', l = .worker pc' ∧ Ending x d' (Function.update w i pc') last ∧ Settled d d' := by
    subst hd
    exact ⟨pc', hl, h.go htask (fun _ => .inl rfl) rfl rfl, .refl _⟩
  have htask := h.task i
  cases hpc : w i with
  | start =>
    rw [hpc] at he htask
    simp only [qsortThread, Edge] at he
    split at he <;> cases he
    exact going rfl rfl htask
  | wait p =>
    rw [hpc] at he htask
    cases p with
    | lock | cond | unlock => exact going he.1 he.2 htask
    | test =>
      obtain ⟨hd, hl⟩ := edge_statement he
      refine going hd hl ?_
      split
      · exact htask
      · rename_i hst
        exact ⟨htask.1, htask.2.resolve_left hst⟩
  | check =>
    rw [hpc] at he htask
    obtain ⟨hd, hl⟩ := edge_statement he
    refine going hd hl ?_
    rw [if_pos htask.2]
    exact .inl htask
  | last j =>
    rw [hpc] at he htask
    obtain ⟨hd, hl⟩ := edge_statement he
    obtain ⟨hlast, hidle, htold⟩ := htask
    have hN := h.nthreads (by simp [hlast])
    refine going hd hl ?_
    rw [hN]
    split
    · split
      · refine ⟨hlast, hidle, fun k hk hki => htold k (by omega) hki⟩
      · exact ⟨hlast, hidle, htold, by assumption, by omega, by simp⟩
    · exact ⟨hlast, hidle, fun k hk hki => htold k (by omega) hki⟩
  | term p j =>
    rw [hpc] at he htask
    obtain ⟨hlast, hidle, htold, hji, hjN, hp⟩ := htask
    cases p with
    | lock => exact going he.1 he.2 ⟨hlast, hidle, htold, hji, hjN, by simp⟩
    | set =>
      obtain ⟨rfl, rfl⟩ := edge_statement he
      have hst (k : ℕ) : ((d.setSt j .term).pool k).st = (d.pool k).st ∨
          ((d.setSt j .term).pool k).st = .term ∧ last ≠ some k := by
        by_cases hk : k = j
        · subst hk
          refine .inr ⟨by rw [setSt_self], fun he => hji ?_⟩
          exact Option.some.inj (he.symm.trans hlast)
        · exact .inl (by rw [setSt_of_ne _ hk])
      refine ⟨_, rfl, h.go ?_ hst rfl rfl, rfl, fun k hk => ?_⟩
      · have hclosing : Closing x d last i (.term .set j) :=
          ⟨hlast, hidle, htold, hji, hjN, by simp⟩
        have hkeep := hclosing.keep hst
        obtain ⟨hlast', hidle', htold', -⟩ := hkeep
        exact ⟨hlast', hidle', htold', hji, hjN, fun _ => by rw [setSt_self]⟩
      · rcases hst k with hs | hs
        · exact hs.trans hk
        · exact hs.1
    | signal => exact going he.1 he.2 ⟨hlast, hidle, htold, hji, hjN, fun _ => hp (.inl rfl)⟩
    | unlock =>
      refine going he.1 he.2 ⟨hlast, hidle, fun k hk hki => ?_⟩
      by_cases hkj : k = j
      · rw [hkj]
        exact hp (.inr rfl)
      · exact htold k (by omega) hki
  | lastUnlock =>
    rw [hpc] at he htask
    exact going he.1 he.2 (.inr htask)
  | leave =>
    rw [hpc] at he htask
    obtain ⟨rfl, rfl⟩ := edge_statement he
    exact ⟨_, rfl, h.go htask (fun _ => .inl rfl) rfl rfl, rfl, fun _ hk => hk⟩
  | done =>
    rw [hpc] at he
    exact he.elim
  | assert | load | sort | alloc | finish | aborted =>
    rw [hpc] at htask
    exact htask.elim

end Steps

end LinuxSummer.Pool
