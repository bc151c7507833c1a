import LinuxSummer.PoolTermination

/-! What `qsort_mt` does when a part of its initialisation fails: it gives back what it has got, and
sorts without its threads. With no threads asked for it goes on to the first entry of an empty
pool. -/
namespace LinuxSummer.Pool
open Monitor Qsort
set_option linter.unusedSectionVars false

/-- What is asked of `qsort_mt` in a state. -/
structure Clean {B : Type} (x : Args B) (m₀ : ℤ → B) (first : Option Resource) (s : State B) :
    Prop where
  /-- No thread gets to an entry that the pool does not have. -/
  touches : ∀ t a s' i, failsAt first s (t, a) → (system x m₀).next s (t, a) = some s' →
    touches t (Program.locs s t) = some i → i < x.maxthreads
  /-- Nothing is initialised twice, and nothing released that was not initialised. -/
  once : ∀ r, s.shared.data.released r ≤ s.shared.data.acquired r ∧ s.shared.data.acquired r ≤ 1
  progress : ∀ l, Program.locs s .main = .main l → l.pc ≠ .done → ∃ s', Onward x m₀ first s s'
  returned : ∀ l, Program.locs s .main = .main l → l.pc = .done →
    (∀ r, s.shared.data.released r = s.shared.data.acquired r) ∧ Result x m₀ s.shared.data.mem

/-- `qsort_mt` returns, and leaves nothing half-done. Threads that wake up by themselves again and
again could go on for ever. -/
def CleansUp {B : Type} (x : Args B) (m₀ : ℤ → B) (first : Option Resource) : Prop :=
  (∀ s, (system x m₀).Reachable (failsAt first) s → Clean x m₀ first s) ∧
    ∀ f : ℕ → State B, (system x m₀).Reachable (failsAt first) (f 0) →
      ¬ ∀ n, Onward x m₀ first (f n) (f (n + 1))

section Touches
variable {B : Type} {x : Args B} {m₀ : ℤ → B} {first : Option Resource} {l : MainLoc} {d : Data B}
  {w : ℕ → WorkerPc} {i k : ℕ}

theorem Bounds.touches (hb : Bounds x first l) (h : touches .main (.main l) = some k) :
    k < x.maxthreads := by
  obtain ⟨pc, islot, i, bailout⟩ := l
  obtain ⟨hislot, hb⟩ := hb
  simp only at hislot hb
  cases pc with
  | initMutex | initCond | setIdle | create =>
    cases h
    exact hb.2
  | dropMutex | undoMutex | undoCond =>
    cases h
    exact hb.2.1
  | hand p =>
    cases h
    exact hb.2.2
  | bail | join | destroyMutex | destroyCond =>
    cases h
    exact lt_of_lt_of_le hb.1 hislot
  | _ => cases h

/-- A thread gets to its own entry, and to those in the bounds of its loops. -/
theorem Stage.touches (h : Stage x m₀ d l w) (hi : i < x.maxthreads)
    (hk : touches (.worker i) (.worker (w i)) = some k) : k < x.maxthreads := by
  cases hpc : w i with
  | start | wait | check | assert | load | sort =>
    rw [hpc] at hk
    cases hk
    exact hi
  | alloc p j a n r =>
    have hopen := h.open_of_working (i := i) (by rw [hpc]; trivial)
    obtain ⟨-, -, hj, -⟩ := hopen.task_at hpc
    rw [hpc] at hk
    cases p with
    | loop | decr | unlockAl | fail => cases hk
    | _ =>
      cases hk
      exact hj
  | finish p =>
    rw [hpc] at hk
    cases p with
    | setIdle =>
      cases hk
      exact hi
    | _ => cases hk
  | term p j =>
    obtain ⟨last, hend⟩ := h.closing (.inr ⟨p, j, hpc⟩)
    have htask := hend.task i
    rw [hpc] at htask hk
    cases hk
    exact htask.2.2.2.2.1
  | last | lastUnlock | leave | done | aborted =>
    rw [hpc] at hk
    cases hk

end Touches

section Progress
variable {B : Type} {x : Args B} {m₀ : ℤ → B} {first : Option Resource} {l : MainLoc} {i : ℕ}
  {k : Loc} {t : Thread} {w : ℕ → WorkerPc} {s : State B} {f : Bool → Data B → Data B × Loc}

end Progress

/-! ### An empty pool -/

section Empty
variable {B : Type} {x : Args B} {m₀ : ℤ → B} {first : Option Resource} {l l' : MainLoc}
  {s : State B}

/-- `qsort_mt` can come to a place, and nobody has the mutex of the first entry there. -/
def Comes (x : Args B) (m₀ : ℤ → B) (first : Option Resource) (l : MainLoc) : Prop :=
  ∃ s, (system x m₀).Reachable (failsAt first) s ∧ s.thread .main = .run (.main l) ∧
    s.shared.owner (.st 0) = none

theorem Comes.goes (h : Comes x m₀ first l)
    (hfirst : ∀ r, initialises (.main l) = some r → first ≠ some r)
    (hstep : ∀ g, ∃ g', perform Thread.main g (qsortMt x l) .run = some (g', .run (.main l')) ∧
      g'.owner = g.owner) : Comes x m₀ first l' := by
  obtain ⟨s, hr, hrun, hfree⟩ := h
  obtain ⟨g', hg, howner⟩ := hstep s.shared
  have hnext : (pool x).next .main s.shared (s.thread .main) .run =
      some (g', .run (.main l')) := by
    rw [hrun]
    exact hg
  have hok : failsAt first s (.main, .run) := by
    refine iff_of_false (by simp) ?_
    rintro ⟨r, hinit, hfirst'⟩
    rw [hrun] at hinit
    exact hfirst r hinit hfirst'
  exact ⟨⟨g', Function.update s.thread .main (.run (.main l'))⟩,
    System.reachable_step hr hok (congrArg (Option.map _) hnext), by simp,
    (congrFun howner _).trans hfree⟩

/-- Without threads `qsort_mt` comes to the first hand-out if it gets an empty pool. -/
theorem comes_to_hand (hzero : x.maxthreads = 0) (hfork : x.forkelem ≤ x.n)
    (hal : first ≠ some .mtxAl) (hpool : first ≠ some .pool) :
    Comes x m₀ first ⟨.hand .lock, 0, 0, false⟩ := by
  have hstart : Comes x m₀ first ⟨.start, 0, 0, true⟩ :=
    ⟨_, System.reachable_init rfl, rfl, rfl⟩
  have hinitAl : Comes x m₀ first ⟨.initAl, 0, 0, true⟩ := by
    refine hstart.goes (by simp [initialises]) fun g => ⟨g, ?_, rfl⟩
    simp [qsortMt, statement, perform, MainLoc.goto, hfork]
  have hcalloc : Comes x m₀ first ⟨.calloc, 0, 0, true⟩ :=
    hinitAl.goes (by simp [initialises, hal]) fun g => ⟨_, rfl, rfl⟩
  have hslots : Comes x m₀ first ⟨.slots, 0, 0, true⟩ :=
    hcalloc.goes (by simp [initialises, hpool]) fun g => ⟨_, rfl, rfl⟩
  have hcommon : Comes x m₀ first ⟨.common, 0, 0, true⟩ := by
    refine hslots.goes (by simp [initialises]) fun g => ⟨g, ?_, rfl⟩
    simp [qsortMt, statement, perform, MainLoc.goto, hzero]
  exact hcommon.goes (by simp [initialises]) fun g => ⟨_, rfl, rfl⟩

/-- There it takes a mutex that does not exist. -/
theorem not_clean_at_hand (hzero : x.maxthreads = 0)
    (h : Comes x m₀ first ⟨.hand .lock, 0, 0, false⟩) :
    ∃ s, (system x m₀).Reachable (failsAt first) s ∧ ¬ Clean x m₀ first s := by
  obtain ⟨s, hr, hrun, hfree⟩ := h
  refine ⟨s, hr, fun hclean => ?_⟩
  have hnext : (pool x).next .main s.shared (s.thread .main) .run =
      some (s.shared.acquire (.st 0) .main, .run (.main ⟨.hand .setA, 0, 0, false⟩)) := by
    rw [hrun]
    simp [Program.next, pool, instr, qsortMt, handOut, perform, hfree, MainLoc.goto]
  have hok : failsAt first s (.main, .run) := by
    refine iff_of_false (by simp) ?_
    rintro ⟨r, hinit, -⟩
    rw [hrun] at hinit
    cases hinit
  have htouches : touches .main (Program.locs s .main) = some 0 := by
    rw [Program.locs, hrun]
    rfl
  have hlt := hclean.touches .main .run _ 0 hok (congrArg (Option.map _) hnext) htouches
  omega

/-- Two bytes, and `qsort` of the C library for them. -/
def sortTwo (m : ℤ → UInt8) : ℤ → UInt8 := if m 4 < m 3 then m ∘ Equiv.swap 3 4 else m

def twoSorted (threads : ℕ) : Args UInt8 :=
  { twoBytes with maxthreads := threads, qsort := sortTwo }

theorem twoSorted_valid (threads : ℕ) : (twoSorted threads).Valid :=
  ⟨Nat.le_refl 1, show 2 * 1 ≤ 2 ^ 31 - 1 by decide, cmpByte_preorder⟩

theorem twoSorted_array (threads : ℕ) (m : ℤ → UInt8) (i : ℤ) (k : Fin 1) :
    (twoSorted threads).array m i k = m (3 + i) := by
  have hk : (k : ℕ) = 0 := by omega
  change m (3 + (1 : ℕ) * i + (k : ℕ)) = m (3 + i)
  rw [hk]
  simp

theorem twoSorted_le (threads : ℕ) (m : ℤ → UInt8) (i j : ℤ) :
    (twoSorted threads).le ((twoSorted threads).array m i) ((twoSorted threads).array m j) ↔
      m (3 + i) ≤ m (3 + j) := by
  have hcmp : (twoSorted threads).cmp ((twoSorted threads).array m i)
      ((twoSorted threads).array m j) = (m (3 + i)).toNat - (m (3 + j)).toNat := by
    rw [← twoSorted_array threads m i 0, ← twoSorted_array threads m j 0]
    rfl
  rw [Args.le, hcmp, UInt8.le_iff_toNat_le]
  omega

theorem array_swap (threads : ℕ) (m : ℤ → UInt8) :
    (twoSorted threads).array (m ∘ Equiv.swap 3 4) =
      (twoSorted threads).array m ∘ Equiv.swap 0 1 := by
  funext i k
  have hswap : Equiv.swap (3 : ℤ) 4 (3 + i) = 3 + Equiv.swap 0 1 i := by
    simp only [Equiv.swap_apply_def]
    repeat' split
    all_goals omega
  calc (twoSorted threads).array (m ∘ Equiv.swap 3 4) i k
      = m (Equiv.swap 3 4 (3 + i)) := twoSorted_array threads _ i k
    _ = m (3 + Equiv.swap 0 1 i) := by rw [hswap]
    _ = _ := (twoSorted_array threads m _ k).symm

theorem sortTwo_result (threads : ℕ) (m : ℤ → UInt8) :
    Result (twoSorted threads) m (sortTwo m) := by
  unfold sortTwo
  split
  · rename_i hlt
    refine ⟨fun i j hi hij hj => ?_, ?_, fun y hy => ?_⟩
    · have hj : j < 2 := hj
      obtain ⟨rfl, rfl⟩ : i = 0 ∧ j = 1 := by omega
      exact (twoSorted_le threads _ 0 1).mpr (UInt8.le_of_lt hlt)
    · have hn : ((twoSorted threads).n : ℤ) = 2 := rfl
      rw [array_swap]
      exact shuffle_swap ⟨by omega, by omega⟩ ⟨by omega, by omega⟩
    · have hy : ¬ (3 ≤ y ∧ y < 3 + (1 : ℕ) * (2 : ℕ)) := hy
      rw [Function.comp_apply, Equiv.swap_apply_of_ne_of_ne (by omega) (by omega)]
  · rename_i hle
    refine ⟨fun i j hi hij hj => ?_, Shuffle.refl _ _ _, fun _ _ => rfl⟩
    have hj : j < 2 := hj
    obtain ⟨rfl, rfl⟩ : i = 0 ∧ j = 1 := by omega
    exact (twoSorted_le threads _ 0 1).mpr (UInt8.not_lt.mp hle)

/-- Without threads `qsort_mt` goes on to an entry that its pool does not have. -/
theorem no_threads_not_clean : (twoSorted 0).Valid ∧ (twoSorted 0).forkelem ≤ (twoSorted 0).n ∧
    (∀ m, Result (twoSorted 0) m ((twoSorted 0).qsort m)) ∧
      ¬ CleansUp (twoSorted 0) twoBytesMem none := by
  have hcomes : Comes (twoSorted 0) twoBytesMem none ⟨.hand .lock, 0, 0, false⟩ :=
    comes_to_hand rfl (by decide) (by simp) (by simp)
  refine ⟨twoSorted_valid 0, by decide, sortTwo_result 0, fun hclean => ?_⟩
  obtain ⟨s, hr, hnot⟩ := not_clean_at_hand rfl hcomes
  exact hnot (hclean.1 s hr)

end Empty

end LinuxSummer.Pool
