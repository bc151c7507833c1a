import Mathlib.Data.Prod.Lex
import LinuxSummer.MpmcCalls
import LinuxSummer.Tally

/-! The queue of hw3/mpmc.c comes to rest. Every access of a call brings the calls in progress
nearer to their end, and a call without a next access is a dequeue that sleeps since there is no
value for it. -/
namespace LinuxSummer.Mpmc
set_option linter.unusedSectionVars false

variable {nr : ℕ} {V : Type} {Q : Setup nr} {g g' g₀ : Shared nr V} {pc pc' : Pc nr V}
  {s s' : Config (Fin nr) (Shared nr V) (Pc nr V)} {u v x : Fin nr} {i : ℕ} {cv : Word nr V}

/-! ### What is left to do -/

/-- A thread that is about to obtain an index. -/
def fetching : Pc nr V → ℕ
  | .fetch _ => 1
  | _ => 0

/-- The accesses on the way to a cell. -/
def findLeft (Q : Setup nr) : Pc nr V → ℕ
  | .start _ i => 3 * (i / Q.cells) + 5
  | .next _ i _ j => 3 * (i / Q.cells - j) + 4
  | .fill _ i _ j => 3 * (i / Q.cells - j) + 3
  | .link _ i _ j _ => 3 * (i / Q.cells - j) + 2
  | .setPtr _ _ _ => 1
  | _ => 0

/-- The accesses after the loop over the handles of `flag`. -/
def Setup.scanned (Q : Setup nr) : QueueOp → ℕ
  | .enqueue => 6
  | .dequeue => 2 * Q.enqueueHandles.length + 7

/-- The accesses of a reclamation, with the frees up to the next one only. -/
def reclaimLeft (Q : Setup nr) : ReclaimPc → ℕ
  | .loadInit => 2 * Q.dequeueHandles.length + Q.scanned .dequeue + 4
  | .casInit _ => 2 * Q.dequeueHandles.length + Q.scanned .dequeue + 3
  | .initNode _ => 2 * Q.dequeueHandles.length + Q.scanned .dequeue + 2
  | .first _ _ => 2 * Q.dequeueHandles.length + Q.scanned .dequeue + 1
  | .scan flag _ _ l _ => 2 * ((Q.handles flag).length - l) + Q.scanned flag
  | .compare flag _ _ l _ _ => 2 * ((Q.handles flag).length - (l + 1)) + Q.scanned flag + 1
  | .decide _ _ _ => 5
  | .setInitNode _ _ _ => 4
  | .reopen _ _ _ => 3
  | .loadNext _ _ => 2
  | .free _ _ _ => 1
  | .restore _ => 1

/-- The accesses after a dequeue has its value. -/
def Setup.over (Q : Setup nr) : ℕ := 2 * Q.dequeueHandles.length + Q.scanned .dequeue + 5

/-- The accesses from the cell to the return. A dequeue that waits needs more of them as long as
it does not sleep. -/
def cellLeft (Q : Setup nr) (g : Shared nr V) (u : Fin nr) : Pc nr V → ℕ
  | .xchgPush _ _ _ => 6
  | .setWord _ _ => 5
  | .wake _ _ => 4
  | .spin _ _ times => Q.over + 6 + times
  | .xchgPop _ _ => Q.over + 5
  | .wait _ _ => if g.futex u = 1 then Q.over + 4 else Q.over + 3
  | .sleep _ _ => if g.asleep u then Q.over + 3 else Q.over + 6
  | .check _ _ => if g.futex u = 1 then Q.over + 5 else Q.over + 2
  | .reload _ _ => Q.over + 1
  | .reclaim _ _ p => reclaimLeft Q p
  | _ => 0

/-- What is left to do, the most important first: the indices to obtain, the ways to the cells, the
nodes that can be freed, and the rest of the calls. -/
def toDo (Q : Setup nr) (s : Config (Fin nr) (Shared nr V) (Pc nr V)) : ℕ ×ₗ ℕ ×ₗ ℕ ×ₗ ℕ :=
  toLex (∑ u, fetching (s.thread u), toLex (∑ u, findLeft Q (s.thread u),
    toLex (s.shared.used - s.shared.freed.length, ∑ u, cellLeft Q s.shared u (s.thread u))))

/-- A wake-up gives the thread `t` three accesses more; the other threads lose by what happens to
their futex words. -/
structure Gains (g g' : Shared nr V) (x t : Fin nr) (e : ℕ) : Prop where
  futex : ∀ v, v ≠ x → g'.futex v = 1 → g.futex v = 1
  asleep : ∀ v, v ≠ x → g.asleep v = true → g'.asleep v = true ∨ v = t ∧ 3 ≤ e

theorem cellLeft_le {t : Fin nr} {e : ℕ} (h : Gains g g' x t e) (hv : v ≠ x) (pc : Pc nr V) :
    cellLeft Q g' v pc ≤ cellLeft Q g v pc + if v = t then e else 0 := by
  have hfutex := h.futex v hv
  have hasleep := h.asleep v hv
  cases pc with
  | wait i c | check i c =>
    simp only [cellLeft]
    split <;> split <;> omega
  | sleep i c =>
    simp only [cellLeft]
    by_cases hs : g.asleep v = true
    · rcases hasleep hs with hs' | ⟨ht, he⟩
      · rw [if_pos hs, if_pos hs']
        exact Nat.le_add_right _ _
      · rw [if_pos hs, if_pos ht]
        split <;> omega
    · rw [if_neg hs]
      split <;> omega
  | _ => exact Nat.le_add_right _ _

/-- How an access of `x` lowers what is left to do. -/
inductive Lower (Q : Setup nr) (x : Fin nr) (g g' : Shared nr V) (pc pc' : Pc nr V) : Prop
  | fetch : fetching pc' < fetching pc → Lower Q x g g' pc pc'
  | find : fetching pc' = fetching pc → findLeft Q pc' < findLeft Q pc → Lower Q x g g' pc pc'
  | free : fetching pc' = fetching pc → findLeft Q pc' = findLeft Q pc → g'.used = g.used →
    g'.freed.length = g.freed.length + 1 → Lower Q x g g' pc pc'
  | rest (t : Fin nr) (e : ℕ) : fetching pc' = fetching pc → findLeft Q pc' = findLeft Q pc →
    g'.used = g.used → g'.freed = g.freed → Gains g g' x t e →
    cellLeft Q g' x pc' + e < cellLeft Q g x pc → Lower Q x g g' pc pc'

theorem gains_same (hfutex : g'.futex = g.futex) (hasleep : g'.asleep = g.asleep) :
    Gains g g' x x 0 :=
  ⟨fun _ _ h => by rwa [hfutex] at h, fun _ _ h => .inl (by rwa [hasleep])⟩

/-- A walk that goes on has fewer nodes before it. -/
theorem findLeft_walk (op : Op V) (i curr j : ℕ) :
    findLeft Q (walk Q op i curr j : Pc nr V) ≤ 3 * (i / Q.cells - j) + 4 ∧
      (i / Q.cells ≤ j → findLeft Q (walk Q op i curr j : Pc nr V) = 1) := by
  unfold walk
  split
  · exact ⟨Nat.le_refl _, fun h => by omega⟩
  · exact ⟨by simp only [findLeft]; omega, fun _ => rfl⟩

theorem fetching_walk (op : Op V) (i curr j : ℕ) :
    fetching (walk Q op i curr j : Pc nr V) = 0 := by
  unfold walk
  split <;> rfl

/-- After an access in the way to the cell, the walk goes on at the next node. -/
theorem findLeft_advance (op : Op V) (i curr j : ℕ) :
    findLeft Q (walk Q op i curr (j + 1) : Pc nr V) < 3 * (i / Q.cells - j) + 2 := by
  obtain ⟨hle, hend⟩ := findLeft_walk op i curr (j + 1)
  rcases Nat.lt_or_ge j (i / Q.cells) with hlt | hge
  · calc findLeft Q (walk Q op i curr (j + 1) : Pc nr V)
        ≤ 3 * (i / Q.cells - (j + 1)) + 4 := hle
      _ < 3 * (i / Q.cells - j) + 2 := by omega
  · rw [hend (by omega)]
    omega

/-- From the label `over`. -/
theorem over_lower (h : atOver Q g₀ i cv = (g', pc')) (hfetch : fetching pc = 0)
    (hfind : findLeft Q pc = 0) (hused : g₀.used = g.used) (hfreed : g₀.freed = g.freed)
    (hfutex : g₀.futex = g.futex) (hasleep : g₀.asleep = g.asleep)
    (hcell : Q.over ≤ cellLeft Q g x pc) : Lower Q x g g' pc pc' := by
  rcases over_cases Q g₀ i cv with heq | heq <;> rw [heq] at h <;> cases h
  · refine .rest x 0 hfetch.symm hfind.symm hused hfreed (gains_same hfutex hasleep) ?_
    refine Nat.lt_of_lt_of_le ?_ hcell
    simp only [cellLeft, reclaimLeft, Setup.over]
    omega
  · refine .rest x 0 hfetch.symm hfind.symm hused hfreed (gains_same hfutex hasleep) ?_
    refine Nat.lt_of_lt_of_le ?_ hcell
    change 0 < Q.over
    exact Nat.succ_pos _

theorem reclaim_lower {p : ReclaimPc} {junk : Node nr V}
    (h : reclaim Q x g junk i cv p = some (g', pc')) :
    Lower Q x g g' (.reclaim i cv p) pc' := by
  have goes {g' : Shared nr V} {p' : ReclaimPc} (hlt : reclaimLeft Q p' < reclaimLeft Q p)
      (hused : g'.used = g.used) (hfreed : g'.freed = g.freed) (hfutex : g'.futex = g.futex)
      (hasleep : g'.asleep = g.asleep) :
      Lower Q x g g' (.reclaim i cv p) (.reclaim i cv p') :=
    .rest x 0 rfl rfl hused hfreed (gains_same hfutex hasleep) hlt
  have returns {g₀ : Shared nr V} (hpos : 0 < reclaimLeft Q p) (hused : g₀.used = g.used)
      (hfreed : g₀.freed = g.freed) (hfutex : g₀.futex = g.futex) (hasleep : g₀.asleep = g.asleep) :
      Lower Q x g (dequeued g₀ i cv).1 (.reclaim i cv p) (dequeued g₀ i cv).2 :=
    .rest x 0 rfl rfl hused hfreed (gains_same hfutex hasleep) hpos
  -- the loop over the handles of `flag` ends
  have ends (flag : QueueOp) (index init min : ℕ) :
      reclaimLeft Q (scanEnd index init min flag) < Q.scanned flag := by
    cases flag <;> simp only [scanEnd, reclaimLeft, Setup.scanned, Setup.handles] <;> omega
  cases p <;> simp only [reclaim] at h
  case loadInit =>
    split at h <;> cases h
    · exact goes (by simp only [reclaimLeft]; omega) rfl rfl rfl rfl
    · exact returns (by simp only [reclaimLeft]; omega) rfl rfl rfl rfl
  case casInit =>
    split at h <;> cases h
    · exact goes (by simp only [reclaimLeft]; omega) rfl rfl rfl rfl
    · exact returns (by simp only [reclaimLeft]; omega) rfl rfl rfl rfl
  case initNode =>
    cases h
    exact goes (by simp only [reclaimLeft]; omega) rfl rfl rfl rfl
  case first =>
    split at h <;> cases h
    exact goes (by simp only [reclaimLeft, Setup.handles]; omega) rfl rfl rfl rfl
  case scan flag index init l min =>
    split at h <;> rename_i hl <;> cases h
    · have hlt := (List.getElem?_eq_some_iff.mp hl).1
      exact goes (by simp only [reclaimLeft]; omega) rfl rfl rfl rfl
    · exact goes ((ends ..).trans_le (Nat.le_add_left _ _)) rfl rfl rfl rfl
  case compare flag index init l min nextMin =>
    have hend (min' : ℕ) : reclaimLeft Q (scanEnd index init min' flag) <
        reclaimLeft Q (.compare flag index init l min nextMin) :=
      (ends ..).trans_le (by simp only [reclaimLeft]; omega)
    split at h <;> split at h <;> cases h
    · exact goes (hend _) rfl rfl rfl rfl
    · exact goes (by simp only [reclaimLeft]; omega) rfl rfl rfl rfl
    · exact goes (hend _) rfl rfl rfl rfl
    · exact goes (by simp only [reclaimLeft]; omega) rfl rfl rfl rfl
  case decide =>
    split at h <;> cases h
    · exact goes (by simp only [reclaimLeft]; omega) rfl rfl rfl rfl
    · exact goes (by simp only [reclaimLeft]; omega) rfl rfl rfl rfl
  case restore =>
    cases h
    exact returns (by simp only [reclaimLeft]; omega) rfl rfl rfl rfl
  case free init tmp min =>
    split at h
    · split at h <;> cases h <;> exact .free rfl rfl rfl rfl
    · cases h
  all_goals
    cases h
    exact goes (by simp only [reclaimLeft]; omega) rfl rfl rfl rfl

/-- Every access lowers what is left to do. -/
theorem run_lower {junk : Node nr V} (h : run Q x g junk pc = some (g', pc')) :
    Lower Q x g g' pc pc' := by
  -- an access between the cell and the return that wakes nobody
  have goes {g' : Shared nr V} {pc pc' : Pc nr V} (hfetch : fetching pc' = fetching pc)
      (hfind : findLeft Q pc' = findLeft Q pc) (hused : g'.used = g.used)
      (hfreed : g'.freed = g.freed) (hgains : Gains g g' x x 0)
      (hlt : cellLeft Q g' x pc' < cellLeft Q g x pc) : Lower Q x g g' pc pc' :=
    .rest x 0 hfetch hfind hused hfreed hgains hlt
  have same : Gains g g x x 0 := gains_same rfl rfl
  cases pc <;> simp only [run] at h
  case idle => cases h
  case fetch op => cases op <;> cases h <;> exact .fetch Nat.zero_lt_one
  case start op i =>
    cases h
    refine .find (fetching_walk ..) (Nat.lt_of_le_of_lt (findLeft_walk ..).1 ?_)
    simp only [findLeft]
    omega
  case next op i curr j =>
    split at h <;> cases h
    · refine .find (fetching_walk ..) ((findLeft_advance ..).trans ?_)
      simp only [findLeft]
      omega
    · exact .find rfl (by simp only [findLeft]; omega)
  case fill op i curr j =>
    cases h
    exact .find rfl (by simp only [findLeft]; omega)
  case link op i curr j tmp =>
    split at h <;> cases h
    · exact .find (fetching_walk ..) (findLeft_advance ..)
    · exact .find (fetching_walk ..) (findLeft_advance ..)
  case setPtr op i curr =>
    cases h
    cases op <;> exact .find rfl Nat.zero_lt_one
  case xchgPush v i c =>
    split at h <;> cases h
    · exact goes rfl rfl rfl rfl (gains_same rfl rfl) (by simp [cellLeft])
    · exact goes rfl rfl rfl rfl (gains_same rfl rfl) (by simp [cellLeft])
  case setWord i t =>
    cases h
    refine goes rfl rfl rfl rfl ⟨fun v hv h => ?_, fun v hv h => .inl h⟩ (by simp [cellLeft])
    rcases eq_or_ne v t with rfl | hvt
    · simp at h
    · simpa [Function.update_of_ne hvt] using h
  case wake i t =>
    cases h
    refine .rest t 3 rfl rfl rfl rfl ⟨fun v hv h => h, fun v hv h => ?_⟩ (by simp [cellLeft])
    rcases eq_or_ne v t with rfl | hvt
    · exact .inr ⟨rfl, Nat.le_refl 3⟩
    · exact .inl (by simpa [enqueued, Function.update_of_ne hvt] using h)
  case spin i c times =>
    split at h
    · cases h
      split
      · exact goes rfl rfl rfl rfl same (by simp only [cellLeft]; omega)
      · exact goes rfl rfl rfl rfl same (by simp only [cellLeft]; omega)
    · exact over_lower (Option.some.inj h) rfl rfl rfl rfl rfl rfl
        (by simp only [cellLeft]; omega)
  case xchgPop i c =>
    split at h
    · cases h
      refine goes rfl rfl rfl rfl (gains_same rfl rfl) ?_
      simp only [cellLeft]
      split <;> omega
    · exact over_lower (Option.some.inj h) rfl rfl rfl rfl rfl rfl
        (by simp only [cellLeft]; omega)
  case wait i c =>
    split at h <;> rename_i hword <;> cases h
    · refine goes rfl rfl rfl rfl ⟨fun v hv h => h, fun v hv h => .inl ?_⟩ ?_
      · simpa [Function.update_of_ne hv] using h
      · simp [cellLeft, hword]
    · exact goes rfl rfl rfl rfl same (by simp [cellLeft, hword])
  case sleep i c =>
    split at h <;> rename_i hasleep <;> cases h
    refine goes rfl rfl rfl rfl same ?_
    simp only [cellLeft, if_neg hasleep]
    split <;> omega
  case check i c =>
    cases h
    split <;> rename_i hword
    · exact goes rfl rfl rfl rfl same (by simp [cellLeft, hword])
    · exact goes rfl rfl rfl rfl same (by simp [cellLeft, hword])
  case reload i c =>
    exact over_lower (Option.some.inj h) rfl rfl rfl rfl rfl rfl (by simp only [cellLeft]; omega)
  case reclaim i cv p => exact reclaim_lower h

theorem sum_update_lt {w : Pc nr V → ℕ} (h : w pc' < w (s.thread x)) :
    ∑ u, w (Function.update s.thread x pc' u) < ∑ u, w (s.thread u) := by
  refine sum_lt_of_paid (t := x) (u := x) (e := 0) ?_ fun v hv => ?_
  · simpa only [Function.update_self, Nat.add_zero] using h
  · simp only [Function.update_of_ne hv]
    exact Nat.le_add_right _ _

theorem sum_update_eq {w : Pc nr V → ℕ} (h : w pc' = w (s.thread x)) :
    ∑ u, w (Function.update s.thread x pc' u) = ∑ u, w (s.thread u) := by
  apply Finset.sum_congr rfl
  intro v _
  rcases eq_or_ne v x with rfl | hv
  · rw [Function.update_self, h]
  · rw [Function.update_of_ne hv]

theorem toDo_lt (hfreed : g'.freed.length ≤ g'.used)
    (h : Lower Q x s.shared g' (s.thread x) pc') :
    toDo Q ⟨g', Function.update s.thread x pc'⟩ < toDo Q s := by
  simp only [toDo, Prod.Lex.toLex_lt_toLex]
  cases h with
  | fetch hlt => exact .inl (sum_update_lt hlt)
  | find hfetch hlt => exact .inr ⟨sum_update_eq hfetch, .inl (sum_update_lt hlt)⟩
  | free hfetch hfind hused hlen =>
    refine .inr ⟨sum_update_eq hfetch, .inr ⟨sum_update_eq hfind, .inl ?_⟩⟩
    omega
  | rest t e hfetch hfind hused hfr hgains hlt =>
    refine .inr ⟨sum_update_eq hfetch, .inr ⟨sum_update_eq hfind, .inr ⟨?_, ?_⟩⟩⟩
    · rw [hused, hfr]
    · refine sum_lt_of_paid (t := x) (u := t) (e := e) ?_ fun v hv => ?_
      · simpa only [Function.update_self] using hlt
      · simp only [Function.update_of_ne hv]
        exact cellLeft_le hgains hv _

/-- A node is freed once, so there are at most as many frees as nodes. -/
theorem length_freed_le {chain : List ℕ} {base : ℕ} (h : Memory Q chain base g) :
    g.freed.length ≤ g.used := by
  have hsub : (g.freed.map Prod.fst).Subperm (List.range g.used) := by
    apply h.freed_nodup.subperm
    intro p hp
    obtain ⟨⟨q, k⟩, hmem, rfl⟩ := List.mem_map.mp hp
    exact List.mem_range.mpr (h.lt_used q (mem_of_place (h.freed q k hmem).1))
  simpa using hsub.length_le

/-! ### The calls that cannot go on -/

/-- The next access of a call in progress. -/
def Onward (Q : Setup nr) (s s' : Config (Fin nr) (Shared nr V) (Pc nr V)) : Prop :=
  ∃ u junk, (system V Q).next s (u, .run junk) = some s'

/-- There is a registered consumer as soon as a dequeue has an index. -/
def Registered (Q : Setup nr) (s : Config (Fin nr) (Shared nr V) (Pc nr V)) : Prop :=
  ∀ u, (stage (s.thread u)).taken ≠ none → Q.dequeueHandles ≠ []

theorem registered_step {chain : List ℕ} {base : ℕ} {a : Act nr V} (hi : Inv Q chain base s)
    (h : Registered Q s) (hn : next Q x s.shared (s.thread x) a = some (g', pc')) :
    Registered Q ⟨g', Function.update s.thread x pc'⟩ := by
  have moved (hx : (stage pc').taken ≠ none → Q.dequeueHandles ≠ []) :
      Registered Q ⟨g', Function.update s.thread x pc'⟩ := by
    intro v hv
    rcases eq_or_ne v x with rfl | hvx
    · simp only [Function.update_self] at hv
      exact hx hv
    · simp only [Function.update_of_ne hvx] at hv
      exact h v hv
  have hl := hi.thread x
  rcases next_cases hn with ⟨junk, hrun⟩ | ⟨i, c, hpc, rfl, rfl⟩ | ⟨hpc, v, hreg, rfl, rfl⟩ |
    ⟨hpc, hreg, rfl, rfl⟩
  · by_cases hf : ∃ op, s.thread x = .fetch op
    · obtain ⟨op, hpc⟩ := hf
      rw [hpc] at hl hrun
      rw [run_fetch] at hrun
      cases op with
      | enqueue v =>
        cases hrun
        exact moved fun hne => absurd rfl hne
      | dequeue =>
        cases hrun
        exact moved fun _ => List.ne_nil_of_mem hl
    · obtain ⟨-, hturn⟩ := run_turn (fun op hop => hf ⟨op, hop⟩) hrun
      apply moved
      intro hne
      cases hturn with
      | goes _ htaken => exact h x (htaken ▸ hne)
      | enqueued | dequeued => exact absurd rfl hne
  · exact moved fun _ => h x (by rw [hpc]; exact Option.some_ne_none i)
  · exact moved fun hne => absurd rfl hne
  · exact moved fun hne => absurd rfl hne

/-- A call without a next access is a dequeue that sleeps. -/
theorem stuck_cases (junk : Node nr V) {chain : List ℕ} {base : ℕ} (hi : Inv Q chain base s)
    (hc : Cells Q base (cellAt Q chain s.shared) s) (hreg : Registered Q s)
    (h : run Q u s.shared junk (s.thread u) = none) :
    s.thread u = .idle ∨ ∃ i c, s.thread u = .sleep i c ∧ s.shared.asleep u = true := by
  have hl := hi.thread u
  have hst := hc.thread u
  have htaken := hreg u
  cases hpc : s.thread u <;> rw [hpc] at h hl hst htaken <;> simp only [run] at h
  case idle => exact .inl rfl
  case fetch op => cases op <;> cases h
  case sleep i c =>
    split at h
    · exact .inr ⟨i, c, rfl, ‹_›⟩
    · cases h
  case next | link | spin | xchgPop | wait => split at h <;> cases h
  case xchgPush v i c =>
    obtain ⟨-, hnone⟩ := hst
    split at h
    · cases h
    · cases h
    · -- the cell holds no value before the exchange by its enqueue
      rename_i w hval
      have hbase : base ≤ i / Q.cells := base_le_of_holds hi.memory hl
      have hcell := hc.waiter i hbase hnone
      rw [cellAt_holds hl, hval] at hcell
      rcases hcell with hcell | ⟨t, hcell, -⟩ <;> cases hcell
  case reclaim i cv p =>
    cases p <;> simp only [reclaim] at h
    case first =>
      split at h
      · cases h
      · rename_i hnil
        rw [List.getElem?_eq_none_iff] at hnil
        have hpos := List.length_pos_iff.mpr (htaken (Option.some_ne_none i))
        omega
    case free init tmp min =>
      obtain ⟨a, b, hab, -, -, hmin, -, htmp⟩ := hl
      split at h
      · split at h <;> cases h
      · -- there is a node behind `init`, since `min` is
        have hlen := (List.getElem?_eq_some_iff.mp hmin).1
        rw [eq_comm, List.getElem?_eq_none_iff] at htmp
        omega
    case compare => split at h <;> split at h <;> cases h
    case loadInit | casInit | scan | decide => split at h <;> cases h
    all_goals cases h
  all_goals cases h

/-- No enqueue is in progress, each value whose index a dequeue has obtained has been returned by
it, and the dequeues that are left sleep since no enqueue has obtained their indices. -/
structure AtRest (s : Config (Fin nr) (Shared nr V) (Pc nr V)) : Prop where
  thread : ∀ u, s.thread u = .idle ∨
    ∃ i c, s.thread u = .sleep i c ∧ s.shared.putIndex ≤ i ∧ i < s.shared.popIndex
  enqueued : ∀ i, i < s.shared.putIndex → s.shared.log.enqueued i = true
  delivered : ∀ i, i < s.shared.putIndex → i < s.shared.popIndex →
    ∃ u v, s.shared.log.enqueue i = some (u, v) ∧ s.shared.log.dequeued i = some (.val v)

theorem registered_reachable (hr : (system V Q).Reachable System.free s) : Registered Q s := by
  refine System.reachable_invariant (fun s hs => ?_) (fun s a s' hreach h _ hn => ?_) hr
  · cases hs
    exact fun u hne => absurd rfl hne
  · obtain ⟨chain, base, hi⟩ := inv_reachable hreach
    obtain ⟨g', pc', hnext, rfl⟩ := Threads.step_cases hn
    exact registered_step hi h hnext

theorem onward_reachable (hr : (system V Q).Reachable System.free s) (h : Onward Q s s') :
    (system V Q).Reachable System.free s' := by
  obtain ⟨u, junk, hn⟩ := h
  exact System.reachable_step hr trivial hn

theorem onward_lt (hr : (system V Q).Reachable System.free s) (h : Onward Q s s') :
    toDo Q s' < toDo Q s := by
  obtain ⟨chain, base, hi⟩ := inv_reachable (onward_reachable hr h)
  obtain ⟨u, junk, hn⟩ := h
  obtain ⟨g', pc', hnext, rfl⟩ := Threads.step_cases hn
  exact toDo_lt (length_freed_le hi.memory) (run_lower ((next_run ..).symm.trans hnext))

theorem atRest_of_stuck (hr : (system V Q).Reachable System.free s)
    (hstuck : ∀ s', ¬ Onward Q s s') : AtRest s := by
  obtain ⟨chain, base, hi, hc⟩ := cells_reachable hr
  have hpending := pending_reachable hr
  have hthread (u : Fin nr) : s.thread u = .idle ∨
      ∃ i c, s.thread u = .sleep i c ∧ s.shared.asleep u = true := by
    refine stuck_cases newNode hi hc (registered_reachable hr) ?_
    by_contra hne
    obtain ⟨⟨g', pc'⟩, hrun⟩ := Option.ne_none_iff_exists'.mp hne
    refine hstuck ⟨g', Function.update s.thread u pc'⟩ ⟨u, newNode, ?_⟩
    rw [← next_run] at hrun
    simp only [system, threads, Threads.system, hrun, Option.map_some]
  have henqueued (i : ℕ) (hi : i < s.shared.putIndex) : s.shared.log.enqueued i = true := by
    obtain ⟨⟨t, v⟩, henq⟩ := Option.ne_none_iff_exists'.mp ((hc.log.enqueue_lt i).mpr hi)
    by_contra hret
    have hgiven := hpending.enqueue i t v henq (Bool.eq_false_of_not_eq_true hret)
    rcases hthread t with hpc | ⟨k, c, hpc, -⟩ <;> rw [hpc] at hgiven <;> cases hgiven
  -- a dequeue sleeps only while the enqueue of its index has not returned
  have hasleep {u : Fin nr} {i c : ℕ} (hpc : s.thread u = .sleep i c)
      (hu : s.shared.asleep u = true) :
      s.shared.log.dequeue i = some u ∧ s.shared.log.enqueued i = false := by
    have hst := hc.thread u
    rw [hpc] at hst
    exact ⟨hst.1, hst.2.2.2 (.inr hu)⟩
  refine ⟨fun u => ?_, henqueued, fun i hput hpop => ?_⟩
  · rcases hthread u with hpc | ⟨i, c, hpc, hu⟩
    · exact .inl hpc
    · obtain ⟨hdeq, hret⟩ := hasleep hpc hu
      refine .inr ⟨i, c, hpc, ?_, ?_⟩
      · by_contra hlt
        rw [henqueued i (by omega)] at hret
        cases hret
      · apply (hc.log.dequeue_lt i).mp
        rw [hdeq]
        exact Option.some_ne_none u
  · obtain ⟨t, hdeq⟩ := Option.ne_none_iff_exists'.mp ((hc.log.dequeue_lt i).mpr hpop)
    cases hret : s.shared.log.dequeued i with
    | none =>
      have htaken := hpending.dequeue i t hdeq hret
      rcases hthread t with hpc | ⟨k, c, hpc, ht⟩ <;> rw [hpc] at htaken <;> cases htaken
      have hfalse := (hasleep hpc ht).2
      rw [henqueued i hput] at hfalse
      cases hfalse
    | some w =>
      obtain ⟨v, hstored, rfl⟩ := hc.log.dequeued i w hret
      obtain ⟨u, henq⟩ := hc.log.stored i v hstored
      exact ⟨u, v, henq, rfl⟩

/-- The calls come to an end: no run goes on for ever in which no call begins and no thread wakes up
by itself, and where it ends the queue is at rest. -/
theorem comes_to_rest (hr : (system V Q).Reachable System.free s) :
    (∀ f : ℕ → Config (Fin nr) (Shared nr V) (Pc nr V), f 0 = s →
      ¬ ∀ n, Onward Q (f n) (f (n + 1))) ∧ ((∀ s', ¬ Onward Q s s') → AtRest s) := by
  refine ⟨fun f hf hsteps => ?_, atRest_of_stuck hr⟩
  have hreach (n : ℕ) : (system V Q).Reachable System.free (f n) := by
    induction n with
    | zero => rwa [hf]
    | succ n ih => exact onward_reachable ih (hsteps n)
  obtain ⟨n, hn⟩ := WellFounded.not_rel_apply_succ (r := (· < ·)) fun n => toDo Q (f n)
  exact hn (onward_lt (hreach n) (hsteps n))

theorem comes_to_rest_sleep : ∃ s : Config (Fin 2) (Shared 2 ℕ) (Pc 2 ℕ),
    s.shared.log.dequeued 0 = some (.val 7) ∧
      (∀ f : ℕ → Config (Fin 2) (Shared 2 ℕ) (Pc 2 ℕ), f 0 = s →
        ¬ ∀ n, Onward ⟨1, 0, 1, [0], [1]⟩ (f n) (f (n + 1))) ∧
      ((∀ s', ¬ Onward ⟨1, 0, 1, [0], [1]⟩ s s') → AtRest s) := by
  have hrun : ((system ℕ ⟨1, 0, 1, [0], [1]⟩).exec (fun _ _ => true) (start 2 ℕ)
      (sleepSchedule 0 1)).any (fun s => decide (s.shared.log.dequeued 0 = some (.val 7))) = true := by
    decide
  obtain ⟨s, hs, hend⟩ := (Option.any_eq_true _ _).mp hrun
  exact ⟨s, of_decide_eq_true hend,
    comes_to_rest ⟨_, rfl, System.run_of_exec (fun _ _ _ => trivial) hs⟩⟩

end LinuxSummer.Mpmc
