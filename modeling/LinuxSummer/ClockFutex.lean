import Mathlib.Data.Fintype.Sum
import Mathlib.Tactic.DeriveFintype
import LinuxSummer.ClockRun
import LinuxSummer.FutexStuck

/-! Programs on the mutexes of hw2/mutex.h and the condition variables of hw2/cond.h, and the clock
graph of hw2/example/main.c as the first of them. -/
namespace LinuxSummer.ClockGraph
open Monitor
set_option linter.unusedSectionVars false

deriving instance Fintype for Thread

variable {N : ℕ}
  {ok : Config (Thread N) (Shared (Thread N) (Mutex N) (Data N)) (Status (Mutex N) Loc) →
    Thread N × Act (Thread N) → Prop}
  {s : Config (Thread N) (Shared (Thread N) (Mutex N) (Data N)) (Status (Mutex N) Loc)}

theorem ticks_le {d : Data N} {l : Thread N → Loc} (h : Inv d l) : d.ticks ≤ 2 ^ N := by
  rcases h with ⟨k, hrun⟩ | hstop
  · have hle := hrun.counter.ticks_le
    have hcast : (d.ticks.toNat : ℤ) ≤ ((2 ^ N : ℕ) : ℤ) := by exact_mod_cast hle
    rw [Int.toNat_of_nonneg hrun.ticks] at hcast
    simpa using hcast
  · rw [hstop.ticks]
    have hpow : (0 : ℤ) < 2 ^ N := by positivity
    omega

/-- Before `clock_stop` somebody can go on: `main` itself until it waits for the clock. -/
theorem running_goes {k : ℕ} (h : (system N).Reachable ok s)
    (hrun : Running s.shared.data (Program.locs s) k) : ¬ ∀ t, (graph N).Blocked s t := by
  intro hblocked
  have hmain := hrun.main
  rcases asleep_of_blocked ranked 0 (fun _ => Nat.le_refl 0) h hblocked .main with
    ⟨l, hl, hi⟩ | ⟨m, k', hk', hmem⟩ | ⟨l, f, hl, hi, hf⟩
  · simp only [Program.locs, hl, Status.loc] at hmain
    change main N l = .exit at hi
    obtain ⟨pc, i, bit⟩ := l
    cases pc with
    | tick p | wait p | stop p => cases p <;> cases hi
    | create => cases hi
    | join | done | start | nodeWait | signal | leave => exact hmain.elim
  · rcases asleep_reachable h _ m k' (.inl hk') with ⟨rfl, hpc⟩ | ⟨self, node, ht, -⟩
    · -- `main` sleeps at the clock, which has not come to `2 ^ N`
      have hlt : s.shared.data.ticks < 2 ^ N := by
        by_contra hge
        refine not_awaited h hblocked hk' hmem fun hle => hge ?_
        exact hle.2
      refine running_not_blocked h hblocked hrun ?_ hlt
      simp [Program.locs, hk', Status.loc, hpc, Ticked]
    · cases ht
  · simp only [Program.locs, hl, Status.loc] at hmain
    change instr .main l = _ at hi
    rcases instr_blocks hi hf with ⟨-, hpc, -⟩ | ⟨self, ht, -⟩
    · rw [MainOk, hpc] at hmain
      exact hmain.elim
    · cases ht

/-- When every thread is blocked the clock is stopped, and all have come to their ends. -/
theorem finished_of_blocked (h : (system N).Reachable ok s)
    (hblocked : ∀ t, (graph N).Blocked s t) :
    s.shared.data.ticks = -1 ∧ ∀ t, (graph N).Finished s t := by
  rcases inv_reachable h with ⟨k, hrun⟩ | hstop
  · exact absurd hblocked (running_goes h hrun)
  · refine ⟨hstop.ticks, fun t => ?_⟩
    obtain ⟨l, hl, hpc⟩ := stopped_done h hblocked hstop t
    refine ⟨l, hl, ?_⟩
    obtain ⟨pc, i, bit⟩ := l
    obtain rfl : pc = .done := hpc
    cases t <;> rfl

end LinuxSummer.ClockGraph

namespace LinuxSummer.FutexProgram
open Monitor
set_option linter.unusedSectionVars false

section Schedule

/-- Where a thread is that is not in a call. -/
def Place.loc {M L : Type*} : Place M L → Option L
  | .run l => some l
  | .call _ _ => none

/-- `main` creates the node and ticks, and falls asleep in `clock_wait`. -/
def sleepSchedule (N : ℕ) : List (ClockGraph.Thread N × Act (ClockGraph.Thread N)) :=
  List.replicate 147 (.main, .run)

/-- The node takes the tick and ticks; its broadcast wakes `main`, which stops the clock. -/
def wholeSchedule {N : ℕ} (self : Fin N) : List (ClockGraph.Thread N × Act (ClockGraph.Thread N)) :=
  sleepSchedule N ++ List.replicate 16 (.node self, .run) ++ [(.node self, .notify .main)] ++
    List.replicate 18 (.main, .run) ++ List.replicate 17 (.node self, .run) ++
    List.replicate 2 (.main, .run)

theorem clock_graph_comes_to_end : ∃ c,
    (system (ClockGraph.graph 1) .longest (ClockGraph.start 1)).Reachable fewSignals c ∧
    Stuck (ClockGraph.graph 1) .longest c := by
  have hrun : ((system (ClockGraph.graph 1) .longest (ClockGraph.start 1)).exec
      (fun c _ => decide ((c.shared.word .clock).adds () < 2 ^ 32) &&
        decide ((c.shared.word (.node 0)).adds () < 2 ^ 32))
      (start (ClockGraph.graph 1) (ClockGraph.start 1)) (wholeSchedule 0)).any
      (fun c => decide ((c.thread .main).place.loc.map ClockGraph.Loc.pc = some .done) &&
        decide ((c.thread (.node 0)).place.loc.map ClockGraph.Loc.pc = some .done)) = true := by
    decide +kernel
  obtain ⟨c, hc, hdone⟩ := (Option.any_eq_true _ _).mp hrun
  simp only [Bool.and_eq_true, decide_eq_true_eq] at hdone
  have hr : (system (ClockGraph.graph 1) .longest (ClockGraph.start 1)).Reachable fewSignals c := by
    refine ⟨_, rfl, System.run_of_exec (fun c a ha => fewSignals_of_adds fun m => ?_) hc⟩
    simp only [Bool.and_eq_true, decide_eq_true_eq] at ha
    cases m with
    | clock => exact ha.1
    | node n =>
      obtain rfl : n = 0 := Subsingleton.elim _ _
      exact ha.2
  have ended {t : ClockGraph.Thread 1}
      (h : (c.thread t).place.loc.map ClockGraph.Loc.pc = some .done) :
      Ended (ClockGraph.graph 1) c t := by
    cases hplace : (c.thread t).place with
    | run l =>
      refine ⟨l, hplace, ?_⟩
      rw [hplace] at h
      obtain ⟨pc, i, bit⟩ := l
      obtain rfl : pc = .done := Option.some.inj h
      cases t <;> rfl
    | call m k =>
      rw [hplace] at h
      cases h
  refine ⟨c, hr, stuck_of_ended fun t => ?_⟩
  cases t with
  | main => exact ended hdone.1
  | node self =>
    obtain rfl : self = 0 := Subsingleton.elim _ _
    exact ended hdone.2

end Schedule

section Program
variable {T M Γ L : Type*} [DecidableEq T] [DecidableEq M] [Fintype T] {P : Program T M Γ L}
  {p : Futex.WakePolicy} {d : Γ} {c : State T M Γ L}

/-- The program on these mutexes is simulated by the program on correct ones, whoever the kernel wakes
and however often `seq` comes round: the starts answer each other, and what the code does from a
state on, the program does on correct mutexes from a state that answers it. -/
theorem program_refines : Refines P (start P d) (P.start d) ∧
    ∀ c c' s, (system P p d).Reachable System.free c → (P.system d).Reachable System.free s →
      Refines P c s → (system P p d).Run System.free c c' →
      ∃ s', (P.system d).Run System.free s s' ∧ Refines P c' s' :=
  ⟨refines_start, fun _ _ _ hc hr hf hrun => simulates hc hr hf hrun⟩

theorem program_refines_sleep : ∃ c s,
    ClockGraph.Thread.main ∈ (c.shared.word .clock).sleepers ∧
    ((ClockGraph.graph 1).system (ClockGraph.start 1)).Reachable System.free s ∧
    Refines (ClockGraph.graph 1) c s := by
  have hrun : ((system (ClockGraph.graph 1) .any (ClockGraph.start 1)).exec (fun _ _ => true)
      (start (ClockGraph.graph 1) (ClockGraph.start 1)) (sleepSchedule 1)).any
      (fun c => decide (ClockGraph.Thread.main ∈ (c.shared.word .clock).sleepers)) = true := by
    decide +kernel
  obtain ⟨c, hc, hsleep⟩ := (Option.any_eq_true _ _).mp hrun
  have h := program_refines (P := ClockGraph.graph 1) (p := .any) (d := ClockGraph.start 1)
  obtain ⟨s, hs, hf⟩ := h.2 _ c _ (System.reachable_init rfl) (System.reachable_init rfl) h.1
    (System.run_of_exec (fun _ _ _ => trivial) hc)
  exact ⟨c, s, of_decide_eq_true hsleep, ⟨_, rfl, hs⟩, hf⟩

/-- A program without a deadlock on correct mutexes has none on these. -/
theorem program_deadlock_free
    (hfree : ∀ s, (P.system d).Reachable System.free s → (∀ t, P.Blocked s t) → ∀ t, P.Finished s t)
    (hc : (system P .longest d).Reachable fewSignals c) (hstuck : Stuck P .longest c) :
    ∀ t, Ended P c t := by
  obtain ⟨s, hr, hf, hblocked⟩ := blocked_of_stuck hc hstuck
  exact fun t => ended_of_stuck hc hstuck hf (hfree s hr hblocked t)

theorem program_deadlock_free_clock : ∃ c, ∀ t, Ended (ClockGraph.graph 1) c t := by
  obtain ⟨c, hc, hstuck⟩ := clock_graph_comes_to_end
  exact ⟨c, program_deadlock_free
    (fun _ hr hb => (ClockGraph.finished_of_blocked hr hb).2) hc hstuck⟩

end Program

section Clock
open ClockGraph
variable {N : ℕ} {c : State (Thread N) (Mutex N) (Data N) Loc}

/-- In every run of the graph on these mutexes: until the clock is stopped, a node that sets its ready
flag finds it clear; the clock does not go beyond `2 ^ N`; and the graph comes to a halt only when
the clock is stopped and all threads have ended. -/
theorem clock_graph_runs
    (hc : (system (graph N) .longest (ClockGraph.start N)).Reachable fewSignals c) :
    (∀ self l last, 0 ≤ c.shared.data.ticks → (c.thread (.node self)).place = .run l →
      l.pc = .signal last .set → c.shared.data.ready self = false) ∧
    c.shared.data.ticks ≤ 2 ^ N ∧
    (Stuck (graph N) .longest c → c.shared.data.ticks = -1 ∧ ∀ t, Ended (graph N) c t) := by
  obtain ⟨s, hr, hf, -⟩ := refines_run False (fun h => h.elim) hc
  rw [← hf.data]
  refine ⟨fun self l last hpos hplace hpc => ?_, ?_, fun hstuck => ?_⟩
  · rcases inv_reachable hr with ⟨k, hrun⟩ | hstop
    · have hl := hf.at_place _ l hplace
      have hloc : Program.locs s (.node self) = l := by simp [Program.locs, hl, Status.loc]
      have hnode := hrun.node self
      rw [hloc] at hnode
      obtain ⟨-, -, hsig⟩ := hnode
      rw [hpc] at hsig
      obtain ⟨rfl, -⟩ := hsig
      exact (hrun.alone (by rw [hloc, hpc]; trivial)).2.2 self
    · rw [hstop.ticks] at hpos
      cases hpos
  · exact ticks_le (inv_reachable hr)
  · obtain ⟨s', hr', hf', hblocked⟩ := blocked_of_stuck hc hstuck
    obtain ⟨hticks, hfin⟩ := finished_of_blocked hr' hblocked
    exact ⟨by rw [hf.data, ← hf'.data, hticks], fun t => ended_of_stuck hc hstuck hf' (hfin t)⟩

theorem clock_graph_runs_to_end : ∃ c : State (Thread 1) (Mutex 1) (Data 1) Loc,
    c.shared.data.ticks = -1 ∧ ∀ t, Ended (graph 1) c t := by
  obtain ⟨c, hc, hstuck⟩ := clock_graph_comes_to_end
  exact ⟨c, (clock_graph_runs hc).2.2 hstuck⟩

end Clock

end LinuxSummer.FutexProgram
